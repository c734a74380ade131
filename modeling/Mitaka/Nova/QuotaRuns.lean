/-
  Subject: Quota bookkeeping over runs of transactions.

  `Db.Inv`: a live reservation points to a live row of its project, user and resource, no
  two live rows are the same user's, and a row's `reserved` is what the live reservations
  that point to it hold.
  * `Inv.finish`: ending reservations takes their rows down by what they hold.
  * `bookkeeping`: in every run that deletes no user who still holds something of the
    project's, the counters are exact and a reservation reaches `in_use` at most once.
-/
import Mitaka.Lib.Run
import Mitaka.Nova.QuotaLimits

namespace Mitaka.Nova.Quota

open List

/-! ## 1. Transactions in order -/

inductive Action
  | reserve (req : ReserveRequest)
  | commit (uuids : List ℕ) (projectId userId : String)
  | rollback (uuids : List ℕ) (projectId userId : String)
  | expire (currentTime : ℤ)
  | destroyAllByProjectAndUser (projectId userId : String)
  | destroyAllByProject (projectId : String)

/-- The tables after the transaction; `none` when it is rolled back. -/
def Db.perform (db : Db) : Action → Option Db
  | .reserve req => (quotaReserve req db).toOption
  | .commit uuids projectId userId => db.reservationCommit uuids projectId userId
  | .rollback uuids projectId userId => db.reservationRollback uuids projectId userId
  | .expire currentTime => db.reservationExpire currentTime
  | .destroyAllByProjectAndUser projectId userId => some (db.quotaDestroyAllByProjectAndUser projectId userId)
  | .destroyAllByProject projectId => some (db.quotaDestroyAllByProject projectId)

/-- The reservations that the transaction adds to `in_use`. -/
def Db.applied (db : Db) : Action → List Reservation
  | .commit uuids _ _ => db.reservations.filter fun r => r.live && decide (r.uuid ∈ uuids)
  | _ => []

/-- The tables, with the reservations that have reached `in_use`. -/
def step (s : Db × List ℕ) (a : Action) : Option (Db × List ℕ) :=
  match s.1.perform a with
  | some db => some (db, s.2 ++ (s.1.applied a).map Reservation.uuid)
  | none => some s

/-- Reservations are ended with the project and user they were made with. -/
def Db.Valid (db : Db) : Action → Prop
  | .commit uuids projectId userId | .rollback uuids projectId userId =>
    ∀ r ∈ db.reservations, r.uuid ∈ uuids → r.projectId = projectId ∧ r.userId = userId
  | _ => True

/-- A user who is deleted holds nothing of what is counted for the whole project. -/
def Db.Spares (db : Db) : Action → Prop
  | .destroyAllByProjectAndUser projectId userId => ∀ r ∈ db.reservations, r.deleted = false →
    r.projectId = projectId → r.userId = userId → r.resource ∈ PER_PROJECT_QUOTAS → r.delta ≤ 0
  | _ => True

/-! ## 2. The invariant -/

/-- What the reservation holds of the row. -/
def Reservation.held (id : ℕ) (r : Reservation) : ℤ := if r.live ∧ r.usageId = id then max r.delta 0 else 0

/-- The sum of `max(delta, 0)` over the live reservations that point to the row. -/
def Db.held (db : Db) (id : ℕ) : ℤ := (db.reservations.map (Reservation.held id)).sum

/-- Whose the rows are, and what the reservations point to. -/
structure Db.Shape (db : Db) : Prop where
  wf : db.Wf
  uuids : Table.Ordered Reservation.uuid db.reservations
  uuid_lt : ∀ r ∈ db.reservations, r.uuid < db.nextUuid
  usageId_lt : ∀ r ∈ db.reservations, r.usageId < db.nextId
  kind : ∀ u ∈ db.usages, u.deleted = false → (u.userId = none ↔ u.resource ∈ PER_PROJECT_QUOTAS)
  one : ∀ u ∈ db.usages, ∀ v ∈ db.usages, u.deleted = false → v.deleted = false → u.projectId = v.projectId →
    u.resource = v.resource → u.userId = v.userId → u.id = v.id
  points : ∀ r ∈ db.reservations, r.deleted = false →
    ∃ u ∈ db.usages, u.id = r.usageId ∧ u.Own r.projectId r.userId r.resource

/-- A row's `reserved` is what is held of it. -/
structure Db.Inv (db : Db) : Prop extends Db.Shape db where
  exact : ∀ u ∈ db.usages, u.deleted = false → u.reserved = db.held u.id

theorem Db.empty_inv : Db.empty.Inv :=
  ⟨⟨⟨List.Pairwise.nil, nofun⟩, List.Pairwise.nil, nofun, nofun, nofun, nofun, nofun⟩, nofun⟩

variable {db : Db}

/-- A user has one row of a resource. -/
theorem Db.Inv.own_unique (h : db.Inv) {projectId userId res : String} {u v : QuotaUsage} (hu : u ∈ db.usages)
    (hv : v ∈ db.usages) (hou : u.Own projectId userId res) (hov : v.Own projectId userId res) : u = v := by
  obtain ⟨⟨hud, hup⟩, hur, huu⟩ := hou
  obtain ⟨⟨hvd, hvp⟩, hvr, hvu⟩ := hov
  have huser : u.userId = v.userId := by
    have hku := h.kind u hu hud
    have hkv := h.kind v hv hvd
    rw [hur] at hku
    rw [hvr] at hkv
    by_cases hper : res ∈ PER_PROJECT_QUOTAS
    · rw [hku.mpr hper, hkv.mpr hper]
    · rw [huu.resolve_left (mt hku.mp hper), hvu.resolve_left (mt hkv.mp hper)]
  exact h.wf.ordered.eq hu hv (h.one u hu v hv hud hvd (hup.trans hvp.symm) (hur.trans hvr.symm) huser)

/-- `user_usages` finds the row of a live reservation. -/
theorem Db.Inv.userUsages_get (h : db.Inv) {r : Reservation} (hr : r ∈ db.reservations) (hlive : r.deleted = false) :
    (db.getProjectUserQuotaUsages r.projectId r.userId).2.get r.resource = some r.usageId := by
  obtain ⟨u, hu, hid, hown⟩ := h.points r hr hlive
  rw [Quota.userUsages_get, ← hid]
  have hmem : u ∈ db.usages.filter fun v => v.Own r.projectId r.userId r.resource :=
    mem_filter.mpr ⟨hu, decide_eq_true hown⟩
  obtain ⟨v, hv⟩ := Option.isSome_iff_exists.mp (getLast?_isSome.mpr (ne_nil_of_mem hmem))
  have hvmem := mem_filter.mp (mem_of_getLast? hv)
  rw [Db.ownRow, hv, h.own_unique hu hvmem.1 hown (of_decide_eq_true hvmem.2)]
  rfl

/-! ## 3. Ending reservations -/

/-- What ending a reservation does to its row. -/
structure Ends (f : Reservation → QuotaUsage → QuotaUsage) : Prop where
  keeps : ∀ r, KeepsRow (f r)
  reserved : ∀ r u, (f r u).reserved = u.reserved - max r.delta 0

theorem release_inUse (r : Reservation) (u : QuotaUsage) : (r.release u).inUse = u.inUse := by
  rw [Reservation.release]
  split
  · rfl
  · rfl

theorem ends_release : Ends Reservation.release := by
  have hcases : ∀ r : Reservation, ∀ u, ∃ n, r.release u = { u with reserved := n } := fun r u => by
    rw [Reservation.release]
    split
    · exact ⟨_, rfl⟩
    · exact ⟨_, rfl⟩
  refine ⟨fun r => ⟨fun u => ?_, fun u => ?_, fun u => ?_, fun u => ?_, fun u => ?_⟩, fun r u => ?_⟩
  · obtain ⟨n, hn⟩ := hcases r u
    rw [hn]
  · obtain ⟨n, hn⟩ := hcases r u
    rw [hn]
  · obtain ⟨n, hn⟩ := hcases r u
    rw [hn]
  · obtain ⟨n, hn⟩ := hcases r u
    rw [hn]
  · obtain ⟨n, hn⟩ := hcases r u
    rw [hn]
  · rw [Reservation.release]
    split
    next h => rw [max_eq_left h]
    next h => rw [max_eq_right (le_of_lt (not_le.mp h)), Int.sub_zero]

theorem ends_apply : Ends Reservation.apply where
  keeps r := ⟨(ends_release.keeps r).id, (ends_release.keeps r).deleted, (ends_release.keeps r).projectId,
    (ends_release.keeps r).userId, (ends_release.keeps r).resource⟩
  reserved := ends_release.reserved

/-- The row after the reservations in order. -/
def endRow (f : Reservation → QuotaUsage → QuotaUsage) (l : List Reservation) (u : QuotaUsage) : QuotaUsage :=
  (l.filter fun r => r.usageId = u.id).foldl (fun u r => f r u) u

variable {f : Reservation → QuotaUsage → QuotaUsage}

theorem endRow_cons (hf : Ends f) (r : Reservation) (l : List Reservation) (u : QuotaUsage) :
    endRow f (r :: l) u = if u.id = r.usageId then endRow f l (f r u) else endRow f l u := by
  by_cases h : u.id = r.usageId
  · rw [if_pos h, endRow, filter_cons_of_pos (by simpa using h.symm), foldl_cons, endRow]
    rw [(hf.keeps r).id]
  · rw [if_neg h, endRow, filter_cons_of_neg (by simpa using Ne.symm h), endRow]

theorem keepsRow_endRow (hf : Ends f) (l : List Reservation) : KeepsRow (endRow f l) := by
  induction l with
  | nil => exact ⟨fun _ => rfl, fun _ => rfl, fun _ => rfl, fun _ => rfl, fun _ => rfl⟩
  | cons r l ih =>
    have hr := hf.keeps r
    constructor <;> intro u <;> rw [endRow_cons hf] <;> split
    · rw [ih.id, hr.id]
    · rw [ih.id]
    · rw [ih.deleted, hr.deleted]
    · rw [ih.deleted]
    · rw [ih.projectId, hr.projectId]
    · rw [ih.projectId]
    · rw [ih.userId, hr.userId]
    · rw [ih.userId]
    · rw [ih.resource, hr.resource]
    · rw [ih.resource]

/-- The row gives back what the reservations hold of it. -/
theorem endRow_reserved (hf : Ends f) (l : List Reservation) (u : QuotaUsage) :
    (endRow f l u).reserved = u.reserved - (l.map fun r => if r.usageId = u.id then max r.delta 0 else 0).sum := by
  induction l generalizing u with
  | nil => exact (Int.sub_zero _).symm
  | cons r l ih =>
    rw [endRow_cons hf, map_cons, sum_cons]
    split
    next h =>
      rw [ih, (hf.keeps r).id, hf.reserved, if_pos h.symm]
      omega
    next h =>
      rw [ih, if_neg (Ne.symm h)]
      omega

theorem endRow_release_inUse (l : List Reservation) (u : QuotaUsage) : (endRow Reservation.release l u).inUse = u.inUse := by
  induction l generalizing u with
  | nil => rfl
  | cons r l ih =>
    rw [endRow_cons ends_release]
    split
    · rw [ih, release_inUse]
    · exact ih u

theorem endRow_apply_inUse (l : List Reservation) (u : QuotaUsage) :
    (endRow Reservation.apply l u).inUse = u.inUse + (l.map fun r => if r.usageId = u.id then r.delta else 0).sum := by
  induction l generalizing u with
  | nil => exact (Int.add_zero _).symm
  | cons r l ih =>
    rw [endRow_cons ends_apply, map_cons, sum_cons]
    split
    next h =>
      rw [ih, (ends_apply.keeps r).id, if_pos h.symm, Reservation.apply]
      dsimp only
      omega
    next h =>
      rw [ih, if_neg (Ne.symm h)]
      omega

/-- The tables after the reservations that a query finds are ended. -/
def Db.endReservations (db : Db) (f : Reservation → QuotaUsage → QuotaUsage) (found : Reservation → Bool) : Db :=
  { db with usages := db.usages.map (endRow f (db.reservations.filter fun r => r.live && found r)) }.softDeleteReservations
    found

theorem foldl_modifyUsage (hf : Ends f) (l : List Reservation) (db : Db) :
    l.foldl (fun d r => d.modifyUsage r.usageId (f r)) db = { db with usages := db.usages.map (endRow f l) } := by
  induction l generalizing db with
  | nil => exact congrArg (fun us => { db with usages := us }) (List.map_id db.usages).symm
  | cons r l ih =>
    rw [foldl_cons, ih, Db.modifyUsage]
    dsimp only
    rw [Table.modify, List.map_map]
    refine congrArg (fun us => { db with usages := us }) (map_congr_left fun u _ => ?_)
    rw [Function.comp_apply, endRow_cons hf]
    split
    · rfl
    · rfl

/-- **Commit and rollback end the listed reservations.** -/
theorem Db.Inv.finishReservations_eq (h : db.Inv) (hf : Ends f) {uuids : List ℕ} {projectId userId : String}
    (hvalid : ∀ r ∈ db.reservations, r.uuid ∈ uuids → r.projectId = projectId ∧ r.userId = userId) :
    db.finishReservations uuids projectId userId f = some (db.endReservations f fun r => decide (r.uuid ∈ uuids)) := by
  have hfold : ∀ l : List Reservation, (∀ r ∈ l, (db.getProjectUserQuotaUsages projectId userId).2.get r.resource =
      some r.usageId) → ∀ d : Db, l.foldlM (fun (d : Db) (r : Reservation) =>
        ((db.getProjectUserQuotaUsages projectId userId).2.get r.resource).map fun id => d.modifyUsage id (f r)) d =
        some (l.foldl (fun d r => d.modifyUsage r.usageId (f r)) d) := fun l => by
    induction l with
    | nil => exact fun _ _ => rfl
    | cons r l ih =>
      intro hl d
      rw [foldlM_cons, hl r mem_cons_self]
      exact ih (fun r hr => hl r (mem_cons_of_mem _ hr)) _
  have hget : ∀ r ∈ db.reservations.filter (fun r => r.live && decide (r.uuid ∈ uuids)),
      (db.getProjectUserQuotaUsages projectId userId).2.get r.resource = some r.usageId := fun r hr => by
    obtain ⟨hmem, hr⟩ := mem_filter.mp hr
    obtain ⟨hlive, hin⟩ := Bool.and_eq_true_iff.mp hr
    obtain ⟨rfl, rfl⟩ := hvalid r hmem (of_decide_eq_true hin)
    exact h.userUsages_get hmem (by simpa [Reservation.live] using hlive)
  rw [Db.finishReservations, hfold _ hget, foldl_modifyUsage hf]
  rfl

theorem modifyUsage_release_of_neg {r : Reservation} (h : ¬ 0 ≤ r.delta) (d : Db) (id : ℕ) :
    d.modifyUsage id r.release = d := by
  have hsame : ∀ u, (if u.id = id then r.release u else u) = u := fun u => by
    rw [Reservation.release, if_neg h, ite_self]
  rw [Db.modifyUsage, Table.modify]
  exact congrArg (fun us => { d with usages := us }) ((map_congr_left fun u _ => hsame u).trans (List.map_id _))

/-- **Expiry ends the expired reservations.** -/
theorem Db.Inv.reservationExpire_eq (h : db.Inv) (currentTime : ℤ) :
    db.reservationExpire currentTime =
      some (db.endReservations Reservation.release fun r => decide (r.expire < currentTime)) := by
  have hrow : ∀ r ∈ db.reservations, r.live → ∃ u, db.usage r.usageId = some u ∧ u.deleted = false := fun r hr hlive => by
    obtain ⟨u, hu, hid, hown⟩ := h.points r hr (by simpa [Reservation.live] using hlive)
    exact ⟨u, h.wf.usage_eq.mpr ⟨hu, hid⟩, hown.1.1⟩
  have hfilter : (db.reservations.filter fun r => r.live && decide (r.expire < currentTime) && (db.usage r.usageId).isSome) =
      db.reservations.filter fun r => r.live && decide (r.expire < currentTime) := by
    refine filter_congr fun r hr => ?_
    cases hlive : r.live with
    | false => rfl
    | true =>
      obtain ⟨u, hu, -⟩ := hrow r hr hlive
      rw [hu, Option.isSome_some, Bool.and_true]
  have hfold : ∀ l : List Reservation, ∀ d : Db, (∀ r ∈ l, ∃ u, d.usage r.usageId = some u ∧ u.deleted = false) →
      l.foldlM Db.releaseUsage d = some (l.foldl (fun d r => d.modifyUsage r.usageId r.release) d) := fun l => by
    induction l with
    | nil => exact fun _ _ => rfl
    | cons r l ih =>
      intro d hl
      obtain ⟨u, hu, hlive⟩ := hl r mem_cons_self
      have hone : d.releaseUsage r = some (d.modifyUsage r.usageId r.release) := by
        rw [Db.releaseUsage]
        by_cases hpos : 0 ≤ r.delta
        · rw [if_pos hpos, hu]
          exact if_neg (by rw [hlive]; exact Bool.false_ne_true)
        · rw [if_neg hpos, modifyUsage_release_of_neg hpos]
      rw [foldlM_cons, hone]
      refine ih _ fun s hs => ?_
      obtain ⟨v, hv, hvlive⟩ := hl s (mem_cons_of_mem _ hs)
      rw [Db.usage_modifyUsage _ _ (ends_release.keeps r).id, hv]
      refine ⟨_, rfl, ?_⟩
      split
      · rw [(ends_release.keeps r).deleted, hvlive]
      · exact hvlive
  have hrows : ∀ r ∈ db.reservations.filter (fun r => r.live && decide (r.expire < currentTime)),
      ∃ u, db.usage r.usageId = some u ∧ u.deleted = false := fun r hr => by
    obtain ⟨hmem, hr⟩ := mem_filter.mp hr
    exact hrow r hmem (Bool.and_eq_true_iff.mp hr).1
  rw [Db.reservationExpire, hfilter, hfold _ _ hrows, foldl_modifyUsage ends_release]
  rfl

/-- The row of a reservation after a soft delete. -/
theorem mem_softDeleteReservations {found : Reservation → Bool} {r' : Reservation} :
    r' ∈ (db.softDeleteReservations found).reservations ↔
      ∃ r ∈ db.reservations, (if r.live && found r then { r with deleted := true } else r) = r' := List.mem_map

theorem mem_softDelete_live {found : Reservation → Bool} {r : Reservation}
    (hr : r ∈ (db.softDeleteReservations found).reservations) (hlive : r.deleted = false) :
    r ∈ db.reservations ∧ found r = false := by
  obtain ⟨s, hs, heq⟩ := mem_softDeleteReservations.mp hr
  split at heq
  · subst heq
    cases hlive
  next h =>
    subst heq
    refine ⟨hs, ?_⟩
    simpa [Reservation.live, hlive] using h

/-- The row holds less by what the ended reservations held. -/
theorem held_softDelete (db : Db) (found : Reservation → Bool) (id : ℕ) :
    (db.softDeleteReservations found).held id = db.held id -
      ((db.reservations.filter fun r => r.live && found r).map fun r => if r.usageId = id then max r.delta 0 else 0).sum := by
  rw [Db.held, Db.held, Db.softDeleteReservations]
  dsimp only
  induction db.reservations with
  | nil => rfl
  | cons r l ih =>
    rw [map_cons, map_cons, sum_cons, ih, map_cons, sum_cons, filter_cons]
    by_cases h : r.live && found r
    · have hlive : r.live = true := (Bool.and_eq_true_iff.mp h).1
      rw [if_pos h, if_pos h, map_cons, sum_cons, Reservation.held, Reservation.held,
        if_neg (fun h => Bool.false_ne_true h.1)]
      have hheld : (if r.live = true ∧ r.usageId = id then max r.delta 0 else 0) =
          if r.usageId = id then max r.delta 0 else 0 := if_congr (and_iff_right hlive) rfl rfl
      rw [hheld]
      omega
    · rw [if_neg h, if_neg h]
      omega

theorem softDelete_uuids (h : Table.Ordered Reservation.uuid db.reservations) (found : Reservation → Bool) :
    Table.Ordered Reservation.uuid (db.softDeleteReservations found).reservations := by
  refine pairwise_map.mpr (h.imp fun hlt => ?_)
  have huuid : ∀ r : Reservation, (if r.live && found r then { r with deleted := true } else r).uuid = r.uuid := fun r => by
    split
    · rfl
    · rfl
  rw [huuid, huuid]
  exact hlt

theorem mem_softDelete_keys {found : Reservation → Bool} {r : Reservation}
    (hr : r ∈ (db.softDeleteReservations found).reservations) :
    ∃ s ∈ db.reservations, s.uuid = r.uuid ∧ s.usageId = r.usageId := by
  obtain ⟨s, hs, rfl⟩ := mem_softDeleteReservations.mp hr
  refine ⟨s, hs, ?_⟩
  split
  · exact ⟨rfl, rfl⟩
  · exact ⟨rfl, rfl⟩

/-- **Ending reservations keeps the invariant.** -/
theorem Db.Inv.endReservations (h : db.Inv) (hf : Ends f) (found : Reservation → Bool) :
    (db.endReservations f found).Inv := by
  have hkeeps := keepsRow_endRow hf (db.reservations.filter fun r => r.live && found r)
  refine ⟨⟨?_, ?_, ?_, ?_, ?_, ?_, ?_⟩, ?_⟩
  · refine ⟨pairwise_map.mpr (h.wf.ordered.imp fun hlt => ?_), fun u hu => ?_⟩
    · rw [hkeeps.id, hkeeps.id]
      exact hlt
    · obtain ⟨v, hv, rfl⟩ := List.mem_map.mp hu
      rw [hkeeps.id]
      exact h.wf.fresh v hv
  · exact softDelete_uuids h.uuids found
  · intro r hr
    obtain ⟨s, hs, huuid, -⟩ := mem_softDelete_keys hr
    exact huuid ▸ h.uuid_lt s hs
  · intro r hr
    obtain ⟨s, hs, -, hid⟩ := mem_softDelete_keys hr
    exact hid ▸ h.usageId_lt s hs
  · intro u hu hlive
    obtain ⟨v, hv, rfl⟩ := List.mem_map.mp hu
    rw [hkeeps.deleted] at hlive
    rw [hkeeps.userId, hkeeps.resource]
    exact h.kind v hv hlive
  · intro u' hu' v' hv'
    obtain ⟨u, hu, rfl⟩ := List.mem_map.mp hu'
    obtain ⟨v, hv, rfl⟩ := List.mem_map.mp hv'
    rw [hkeeps.deleted, hkeeps.deleted, hkeeps.projectId, hkeeps.projectId, hkeeps.resource, hkeeps.resource,
      hkeeps.userId, hkeeps.userId, hkeeps.id, hkeeps.id]
    exact h.one u hu v hv
  · intro r hr hlive
    obtain ⟨u, hu, hid, hown⟩ := h.points r (mem_softDelete_live hr hlive).1 hlive
    exact ⟨_, List.mem_map_of_mem hu, (hkeeps.id u).trans hid, hkeeps.own_iff.mpr hown⟩
  · intro u hu hlive
    obtain ⟨v, hv, rfl⟩ := List.mem_map.mp hu
    rw [hkeeps.deleted] at hlive
    rw [endRow_reserved hf, h.exact v hv hlive, hkeeps.id, Db.endReservations, held_softDelete]
    rfl

/-! ## 4. Deleting -/

theorem mem_softDeleteUsages {found : QuotaUsage → Bool} {u' : QuotaUsage} :
    u' ∈ (db.softDeleteUsages found).usages ↔
      ∃ u ∈ db.usages, (if !u.deleted && found u then { u with deleted := true } else u) = u' := List.mem_map

theorem softDeleteUsages_id (found : QuotaUsage → Bool) (u : QuotaUsage) :
    (if !u.deleted && found u then { u with deleted := true } else u).id = u.id := by
  split
  · rfl
  · rfl

theorem mem_softDeleteUsages_live {found : QuotaUsage → Bool} {u : QuotaUsage} (hu : u ∈ (db.softDeleteUsages found).usages)
    (hlive : u.deleted = false) : u ∈ db.usages ∧ found u = false := by
  obtain ⟨v, hv, heq⟩ := mem_softDeleteUsages.mp hu
  split at heq
  · subst heq
    cases hlive
  next h =>
    subst heq
    refine ⟨hv, ?_⟩
    simpa [hlive] using h

/-- Rows and reservations are deleted together: no reservation loses its row, and what is deleted holds nothing of a
row that stays. -/
theorem Db.Inv.destroy (h : db.Inv) (foundUsage : QuotaUsage → Bool) (found : Reservation → Bool)
    (hpoints : ∀ r ∈ db.reservations, r.deleted = false → found r = false → ∀ u ∈ db.usages,
      u.Own r.projectId r.userId r.resource → foundUsage u = false)
    (hheld : ∀ r ∈ db.reservations, r.deleted = false → found r = true → ∀ u ∈ db.usages,
      u.Own r.projectId r.userId r.resource → foundUsage u = false → r.delta ≤ 0) :
    ((db.softDeleteUsages foundUsage).softDeleteReservations found).Inv := by
  refine ⟨⟨?_, ?_, ?_, ?_, ?_, ?_, ?_⟩, ?_⟩
  · refine ⟨pairwise_map.mpr (h.wf.ordered.imp fun hlt => ?_), fun u hu => ?_⟩
    · rw [softDeleteUsages_id, softDeleteUsages_id]
      exact hlt
    · obtain ⟨v, hv, rfl⟩ := mem_softDeleteUsages.mp hu
      rw [softDeleteUsages_id]
      exact h.wf.fresh v hv
  · exact softDelete_uuids h.uuids found
  · intro r hr
    obtain ⟨s, hs, huuid, -⟩ := mem_softDelete_keys hr
    exact huuid ▸ h.uuid_lt s hs
  · intro r hr
    obtain ⟨s, hs, -, hid⟩ := mem_softDelete_keys hr
    exact hid ▸ h.usageId_lt s hs
  · exact fun u hu hlive => h.kind u (mem_softDeleteUsages_live hu hlive).1 hlive
  · exact fun u hu v hv hul hvl => h.one u (mem_softDeleteUsages_live hu hul).1 v (mem_softDeleteUsages_live hv hvl).1 hul hvl
  · intro r hr hlive
    obtain ⟨hmem, hfound⟩ := mem_softDelete_live hr hlive
    obtain ⟨u, hu, hid, hown⟩ := h.points r hmem hlive
    refine ⟨u, mem_softDeleteUsages.mpr ⟨u, hu, if_neg ?_⟩, hid, hown⟩
    rw [hpoints r hmem hlive hfound u hu hown, Bool.and_false]
    exact Bool.false_ne_true
  · intro u hu hlive
    obtain ⟨hmem, hstays⟩ := mem_softDeleteUsages_live hu hlive
    have hzero : ((db.reservations.filter fun r => r.live && found r).map fun r =>
        if r.usageId = u.id then max r.delta 0 else 0).sum = 0 := by
      refine sum_eq_zero fun x hx => ?_
      obtain ⟨r, hr, rfl⟩ := List.mem_map.mp hx
      obtain ⟨hr, hcond⟩ := mem_filter.mp hr
      obtain ⟨hrlive, hfound⟩ := Bool.and_eq_true_iff.mp hcond
      have hrlive : r.deleted = false := by simpa [Reservation.live] using hrlive
      split
      next hid =>
        obtain ⟨v, hv, hvid, hown⟩ := h.points r hr hrlive
        obtain rfl := h.wf.ordered.eq hv hmem (hvid.trans hid)
        exact max_eq_right (hheld r hr hrlive hfound v hv hown hstays)
      next => rfl
    rw [h.exact u hmem hlive]
    refine ((held_softDelete (db.softDeleteUsages foundUsage) found u.id).trans ?_).symm
    exact (congrArg (db.held u.id - ·) hzero).trans (Int.sub_zero _)

theorem Db.Inv.quotaDestroyAllByProject (h : db.Inv) (projectId : String) : (db.quotaDestroyAllByProject projectId).Inv := by
  refine h.destroy _ _ (fun r _ _ hfound u _ hown => ?_) fun r _ _ hfound u _ hown hstays => ?_
  · rw [hown.1.2]
    exact hfound
  · rw [hown.1.2] at hstays
    rw [hstays] at hfound
    cases hfound

theorem Db.Inv.quotaDestroyAllByProjectAndUser (h : db.Inv) {projectId userId : String}
    (hspares : db.Spares (.destroyAllByProjectAndUser projectId userId)) :
    (db.quotaDestroyAllByProjectAndUser projectId userId).Inv := by
  refine h.destroy _ _ (fun r hr hlive hfound u hu hown => ?_) fun r hr hlive hfound u hu hown hstays => ?_
  · refine decide_eq_false fun ⟨hproject, huser⟩ => of_decide_eq_false hfound ⟨hown.1.2.symm.trans hproject, ?_⟩
    rcases hown.2.2 with hnone | hsome
    · rw [huser] at hnone
      cases hnone
    · exact Option.some.inj (hsome.symm.trans huser)
  · obtain ⟨hproject, huser⟩ := of_decide_eq_true hfound
    refine hspares r hr hlive hproject huser ?_
    -- the row that stays is the project's
    have hnone : u.userId = none := hown.2.2.resolve_right fun hsome =>
      of_decide_eq_false hstays ⟨hown.1.2.trans hproject, hsome.trans (congrArg some huser)⟩
    exact hown.2.1 ▸ (h.kind u hu hown.1.1).mp hnone

/-! ## 5. Reserving -/

theorem Db.Inv.addUsage (h : db.Inv) {projectId userId res : String} {u : QuotaUsage} (hid : u.id = db.nextId)
    (hown : u.Own projectId userId res) (hkind : u.userId = none ↔ u.resource ∈ PER_PROJECT_QUOTAS) (hzero : u.reserved = 0)
    (hno : ∀ v ∈ db.usages, ¬ v.Own projectId userId res) : (db.addUsage u).Inv := by
  have hmem : ∀ v, v ∈ (db.addUsage u).usages ↔ v ∈ db.usages ∨ v = u := fun v => by
    rw [Db.addUsage, mem_append, mem_singleton]
  have hnew : ∀ v ∈ db.usages, v.deleted = false → v.projectId = u.projectId → v.resource = u.resource →
      v.userId ≠ u.userId := fun v hv hlive hproject hres huser =>
    hno v hv ⟨⟨hlive, hproject.trans hown.1.2⟩, hres.trans hown.2.1, huser ▸ hown.2.2⟩
  refine ⟨⟨?_, ?_, ?_, ?_, ?_, ?_, ?_⟩, ?_⟩
  · exact h.wf.addUsage hid
  · exact h.uuids
  · exact h.uuid_lt
  · exact fun r hr => Nat.lt_succ_of_lt (h.usageId_lt r hr)
  · intro v hv hlive
    rcases (hmem v).mp hv with hv | rfl
    · exact h.kind v hv hlive
    · exact hkind
  · intro v hv t ht hvl htl hproject hres huser
    rcases (hmem v).mp hv with hv' | rfl <;> rcases (hmem t).mp ht with ht' | rfl
    · exact h.one v hv' t ht' hvl htl hproject hres huser
    · exact absurd huser (hnew v hv' hvl hproject hres)
    · exact absurd huser.symm (hnew t ht' htl hproject.symm hres.symm)
    · rfl
  · intro r hr hlive
    obtain ⟨v, hv, hrest⟩ := h.points r hr hlive
    exact ⟨v, (hmem v).mpr (.inl hv), hrest⟩
  · intro v hv hlive
    rcases (hmem v).mp hv with hv | rfl
    · exact h.exact v hv hlive
    · rw [hzero, hid]
      refine (sum_eq_zero fun x hx => ?_).symm
      obtain ⟨r, hr, rfl⟩ := List.mem_map.mp hx
      exact if_neg fun hc => (h.usageId_lt r hr).ne hc.2

theorem KeepsRow.ite {f : QuotaUsage → QuotaUsage} (hf : KeepsRow f) (id : ℕ) :
    KeepsRow fun u => if u.id = id then f u else u := by
  constructor <;> intro u <;> split
  · exact hf.id u
  · rfl
  · exact hf.deleted u
  · rfl
  · exact hf.projectId u
  · rfl
  · exact hf.userId u
  · rfl
  · exact hf.resource u
  · rfl

theorem Db.Shape.modifyUsage (h : db.Shape) (id : ℕ) {f : QuotaUsage → QuotaUsage} (hf : KeepsRow f) :
    (db.modifyUsage id f).Shape := by
  have hg := hf.ite id
  refine ⟨h.wf.modifyUsage id hf.id, h.uuids, h.uuid_lt, h.usageId_lt, ?_, ?_, ?_⟩
  · intro u' hu' hlive
    obtain ⟨u, hu, rfl⟩ := Table.mem_modify.mp hu'
    rw [hg.userId, hg.resource]
    exact h.kind u hu ((hg.deleted u).symm.trans hlive)
  · intro u' hu' v' hv' hul hvl hproject hres huser
    obtain ⟨u, hu, rfl⟩ := Table.mem_modify.mp hu'
    obtain ⟨v, hv, rfl⟩ := Table.mem_modify.mp hv'
    rw [hg.projectId, hg.projectId] at hproject
    rw [hg.resource, hg.resource] at hres
    rw [hg.userId, hg.userId] at huser
    rw [hg.id, hg.id]
    exact h.one u hu v hv ((hg.deleted u).symm.trans hul) ((hg.deleted v).symm.trans hvl) hproject hres huser
  · intro r hr hlive
    obtain ⟨u, hu, hid, hown⟩ := h.points r hr hlive
    exact ⟨_, Table.mem_modify.mpr ⟨u, hu, rfl⟩, (hg.id u).trans hid, hg.own_iff.mpr hown⟩

theorem Db.Inv.modifyUsage (h : db.Inv) (id : ℕ) {f : QuotaUsage → QuotaUsage} (hf : KeepsRow f)
    (hreserved : ∀ u, (f u).reserved = u.reserved) : (db.modifyUsage id f).Inv where
  toShape := h.toShape.modifyUsage id hf
  exact u' hu' hlive := by
    obtain ⟨u, hu, rfl⟩ := Table.mem_modify.mp hu'
    have hkept : (if u.id = id then f u else u).reserved = u.reserved := by
      split
      · exact hreserved u
      · rfl
    rw [hkept, (hf.ite id).id]
    exact h.exact u hu (((hf.ite id).deleted u).symm.trans hlive)

variable {req : ReserveRequest} {userUsages : Dict String ℕ}

variable (req) in
/-- `user_usages` finds the user's live rows. -/
structure Db.Owned (db : Db) (userUsages : Dict String ℕ) : Prop where
  found : ∀ res id, userUsages.get res = some id → ∃ u, db.usage id = some u ∧ u.Own req.projectId req.userId res
  missing : ∀ res, userUsages.get res = none → ∀ u ∈ db.usages, ¬ u.Own req.projectId req.userId res

theorem Db.Inv.owned (h : db.Inv) :
    db.Owned req (db.getProjectUserQuotaUsages req.projectId req.userId).2 := by
  constructor
  · intro res id hget
    rw [Quota.userUsages_get] at hget
    obtain ⟨u, hu, rfl⟩ := Option.map_eq_some_iff.mp hget
    have hmem := mem_filter.mp (mem_of_getLast? hu)
    exact ⟨u, h.wf.usage_eq.mpr ⟨hmem.1, rfl⟩, of_decide_eq_true hmem.2⟩
  · intro res hget u hu hown
    rw [Quota.userUsages_get, Option.map_eq_none_iff, Db.ownRow, getLast?_eq_none_iff, filter_eq_nil_iff] at hget
    exact hget u hu (decide_eq_true hown)

theorem Db.Owned.modifyUsage (h : db.Owned req userUsages) (id : ℕ) {f : QuotaUsage → QuotaUsage} (hf : KeepsRow f) :
    (db.modifyUsage id f).Owned req userUsages := by
  constructor
  · intro res j hget
    obtain ⟨u, hu, hown⟩ := h.found res j hget
    rw [Db.usage_modifyUsage _ _ hf.id, hu]
    refine ⟨_, rfl, ?_⟩
    split
    · exact hf.own_iff.mpr hown
    · exact hown
  · intro res hget u' hu' hown
    obtain ⟨u, hu, rfl⟩ := Table.mem_modify.mp hu'
    refine h.missing res hget u hu ?_
    split at hown
    · exact hf.own_iff.mp hown
    · exact hown

variable (req) in
/-- The invariant within the transaction. -/
structure Session.Inv (s : Session) : Prop where
  inv : s.db.Inv
  owned : s.db.Owned req s.userUsages

theorem Session.Inv.create {s : Session} (hs : s.Inv req) (res : String) (now : ℤ) :
    (createQuotaUsageIfMissing req res now s).2.Inv req := by
  cases hget : s.userUsages.get res with
  | some id =>
    rw [create_of_some hget]
    exact hs
  | none =>
    rw [create_of_none hget]
    have hno := hs.owned.missing res hget
    have hown := @newUsage_own req res s.db.nextId now
    refine ⟨hs.inv.addUsage rfl hown ?_ rfl hno, ?_, ?_⟩
    · rw [newUsage]
      dsimp only
      split
      next hper => exact iff_of_true rfl hper
      next hper => exact iff_of_false (by simp) hper
    · intro r id hid
      rw [Dict.get_set] at hid
      rw [Db.usage_addUsage]
      by_cases hr : res = r
      · subst hr
        rw [if_pos rfl] at hid
        cases hid
        rw [hs.inv.wf.usage_nextId]
        exact ⟨_, if_pos rfl, hown⟩
      · rw [if_neg hr] at hid
        obtain ⟨u, hu, hrest⟩ := hs.owned.found r id hid
        rw [hu]
        exact ⟨u, rfl, hrest⟩
    · intro r hnone u hu hou
      rw [Dict.get_set] at hnone
      split at hnone
      · cases hnone
      next hr =>
        rcases mem_append.mp hu with hu | hu
        · exact hs.owned.missing r hnone u hu hou
        · rw [mem_singleton.mp hu] at hou
          exact hr hou.2.1

theorem Session.Inv.update {s : Session} (hs : s.Inv req) (res : String) {f : QuotaUsage → QuotaUsage} (hf : KeepsRow f)
    (hreserved : ∀ u, (f u).reserved = u.reserved) : (s.update res f).Inv req := by
  rw [Session.update]
  cases hget : s.userUsages.get res with
  | none => exact hs
  | some id => exact ⟨hs.inv.modifyUsage id hf hreserved, hs.owned.modifyUsage id hf⟩

/-- What the call may do to the `in_use` of a row that was there: replace it by a figure of a sync routine. -/
def Refreshed (req : ReserveRequest) (db db' : Db) : Prop :=
  ∀ u ∈ db.usages, ∃ u', db'.usage u.id = some u' ∧ u'.resource = u.resource ∧
    (u'.inUse = u.inUse ∨ ∃ r, (u.resource, u'.inUse) ∈ req.sync r)

/-- **The refresh keeps the invariant.** -/
theorem Db.Inv.afterRefresh (h : db.Inv) (req : ReserveRequest) :
    (Quota.afterRefresh req db).Inv req ∧ Refreshed req db (Quota.afterRefresh req db).db := by
  refine refreshUsages_induction (P := fun s => s.Inv req ∧ Refreshed req db s.db) (fun s res now hs => ?_)
    (fun s res f hf hreserved huse hs => ?_) req.order [] ⟨⟨h, h.owned⟩, fun u hu => ?_⟩
  · refine ⟨hs.1.create res now, fun u hu => ?_⟩
    obtain ⟨u', hu', hrest⟩ := hs.2 u hu
    refine ⟨u', ?_, hrest⟩
    cases hget : s.userUsages.get res with
    | some id =>
      rw [create_of_some hget]
      exact hu'
    | none =>
      rw [create_of_none hget, Db.usage_addUsage, hu']
      rfl
  · refine ⟨hs.1.update res hf hreserved, fun u hu => ?_⟩
    obtain ⟨u', hu', hres, hfig⟩ := hs.2 u hu
    rw [Session.update]
    cases hget : s.userUsages.get res with
    | none => exact ⟨u', hu', hres, hfig⟩
    | some id =>
      dsimp only
      rw [Db.usage_modifyUsage _ _ hf.id, hu', Option.map_some]
      by_cases hid : u.id = id
      · -- the row of the resource
        obtain ⟨v, hv, hown⟩ := hs.1.owned.found res id hget
        rw [← hid, hu'] at hv
        cases hv
        rw [if_pos hid]
        refine ⟨_, rfl, (hf.resource u').trans hres, ?_⟩
        rcases huse u' with hsame | ⟨r, hr⟩
        · rw [hsame]
          exact hfig
        · rw [← hres, hown.2.1]
          exact .inr ⟨r, hr⟩
      · rw [if_neg hid]
        exact ⟨u', rfl, hres, hfig⟩
  · exact ⟨u, h.wf.usage_eq.mpr ⟨hu, rfl⟩, rfl, .inl rfl⟩

/-- A new reservation of a live row. -/
def Db.addReservation (db : Db) (r : Reservation) : Db :=
  { db with reservations := db.reservations ++ [r], nextUuid := db.nextUuid + 1 }

theorem Db.Shape.addReservation (h : db.Shape) {r : Reservation} (huuid : r.uuid = db.nextUuid) {u : QuotaUsage}
    (hu : u ∈ db.usages) (hid : u.id = r.usageId) (hown : u.Own r.projectId r.userId r.resource) :
    (db.addReservation r).Shape := by
  have hmem : ∀ t, t ∈ (db.addReservation r).reservations ↔ t ∈ db.reservations ∨ t = r := fun t => by
    rw [Db.addReservation, mem_append, mem_singleton]
  refine ⟨⟨h.wf.ordered, h.wf.fresh⟩, h.uuids.append fun t ht => huuid ▸ h.uuid_lt t ht, ?_, ?_, h.kind, h.one, ?_⟩
  · intro t ht
    rcases (hmem t).mp ht with ht | rfl
    · exact Nat.lt_succ_of_lt (h.uuid_lt t ht)
    · exact huuid ▸ Nat.lt_succ_self _
  · intro t ht
    rcases (hmem t).mp ht with ht | rfl
    · exact h.usageId_lt t ht
    · exact hid ▸ h.wf.fresh u hu
  · intro t ht hlive
    rcases (hmem t).mp ht with ht | rfl
    · exact h.points t ht hlive
    · exact ⟨u, hu, hid, hown⟩

theorem held_addReservation (db : Db) (r : Reservation) (id : ℕ) :
    (db.addReservation r).held id = db.held id + r.held id := by
  rw [Db.held, Db.addReservation, map_append, sum_append, map_singleton, sum_singleton, ← Db.held]

/-- The row takes what the reservation holds. -/
def addReserved (delta : ℤ) (u : QuotaUsage) : QuotaUsage := { u with reserved := u.reserved + max delta 0 }

theorem keepsRow_addReserved (delta : ℤ) : KeepsRow (addReserved delta) :=
  ⟨fun _ => rfl, fun _ => rfl, fun _ => rfl, fun _ => rfl, fun _ => rfl⟩

theorem reserveResource_eq {db : Db} {e : String × ℤ} {id : ℕ} (hget : userUsages.get e.1 = some id) :
    reserveResource req userUsages db e = (db.modifyUsage id (addReserved e.2)).addReservation
      ⟨db.nextUuid, id, req.projectId, req.userId, e.1, e.2, req.expire, false⟩ := by
  unfold reserveResource
  rw [hget]
  dsimp only
  by_cases hpos : 0 < e.2
  · have hadd : addReserved e.2 = fun u : QuotaUsage => { u with reserved := u.reserved + e.2 } := by
      funext u
      rw [addReserved, max_eq_left hpos.le]
    rw [if_pos hpos, hadd]
    rfl
  · have hadd : ∀ u, (if u.id = id then addReserved e.2 u else u) = u := fun u => by
      rw [addReserved, max_eq_right (not_lt.mp hpos), Int.add_zero, ite_self]
    have hsame : Table.modify QuotaUsage.id db.usages id (addReserved e.2) = db.usages :=
      (map_congr_left fun u _ => hadd u).trans (List.map_id _)
    rw [if_neg hpos, Db.modifyUsage, hsame]
    rfl

theorem Db.Inv.reserveResource (h : db.Inv) (ho : db.Owned req userUsages) (e : String × ℤ) :
    (Quota.reserveResource req userUsages db e).Inv ∧ (Quota.reserveResource req userUsages db e).Owned req userUsages := by
  cases hget : userUsages.get e.1 with
  | none =>
    have hsame : Quota.reserveResource req userUsages db e = db := by
      unfold Quota.reserveResource
      rw [hget]
    rw [hsame]
    exact ⟨h, ho⟩
  | some id =>
    rw [reserveResource_eq hget]
    have hkeeps := keepsRow_addReserved e.2
    have ho' := ho.modifyUsage id hkeeps
    obtain ⟨u, hu, hown⟩ := ho'.found e.1 id hget
    have hshape := h.toShape.modifyUsage id hkeeps
    obtain ⟨hmem, hid⟩ := hshape.wf.usage_eq.mp hu
    refine ⟨⟨hshape.addReservation rfl hmem hid hown, ?_⟩, ho'.found, ho'.missing⟩
    intro v' hv' hlive
    obtain ⟨v, hv, rfl⟩ := Table.mem_modify.mp hv'
    have hexact := h.exact v hv (((hkeeps.ite id).deleted v).symm.trans hlive)
    rw [held_addReservation, (hkeeps.ite id).id, Reservation.held]
    dsimp only
    by_cases hvid : v.id = id
    · rw [if_pos hvid, if_pos ⟨rfl, hvid.symm⟩]
      exact congrArg (· + max e.2 0) hexact
    · rw [if_neg hvid, if_neg fun hc => hvid hc.2.symm, Int.add_zero]
      exact hexact

theorem Refreshed.reserveResource {db' : Db} (h : Refreshed req db db') (e : String × ℤ) :
    Refreshed req db (Quota.reserveResource req userUsages db' e) := by
  intro u hu
  obtain ⟨u', hu', hres, hfig⟩ := h u hu
  cases hget : userUsages.get e.1 with
  | none =>
    unfold Quota.reserveResource
    rw [hget]
    exact ⟨u', hu', hres, hfig⟩
  | some id =>
    rw [reserveResource_eq hget]
    have hlookup := Db.usage_modifyUsage db' id (keepsRow_addReserved e.2).id u.id
    rw [hu', Option.map_some] at hlookup
    refine ⟨_, hlookup, ?_⟩
    split
    · exact ⟨hres, hfig⟩
    · exact ⟨hres, hfig⟩

/-- **A granted call** keeps the invariant, adds its reservations and changes `in_use` by the refresh only. -/
theorem Db.Inv.quotaReserve (h : db.Inv) {db' : Db} (hok : Quota.quotaReserve req db = .ok db') :
    db'.Inv ∧ Refreshed req db db' ∧ ∃ new, db'.reservations = db.reservations ++ new := by
  obtain ⟨hinv, hrefreshed⟩ := h.afterRefresh req
  have hall : ∀ (deltas : Dict String ℤ) (d : Db),
      d.Inv ∧ d.Owned req (Quota.afterRefresh req db).userUsages ∧ Refreshed req db d →
      (deltas.foldl (Quota.reserveResource req (Quota.afterRefresh req db).userUsages) d).Inv ∧
      Refreshed req db (deltas.foldl (Quota.reserveResource req (Quota.afterRefresh req db).userUsages) d) := fun deltas => by
    induction deltas with
    | nil => exact fun _ hd => ⟨hd.1, hd.2.2⟩
    | cons e deltas ih =>
      intro d hd
      obtain ⟨hi, ho⟩ := hd.1.reserveResource hd.2.1 e
      exact ih _ ⟨hi, ho, hd.2.2.reserveResource e⟩
  rcases @quotaReserve_ok req db h.wf with ⟨-, heq⟩ | ⟨-, error, heq⟩
  · rw [heq] at hok
    cases hok
    obtain ⟨hi, hr⟩ := hall req.deltas _ ⟨hinv.inv, hinv.owned, hrefreshed⟩
    obtain ⟨new, hnew, -⟩ := foldl_reserveResource (@afterRefresh_spec req db h.wf).2.2 (Quota.afterRefresh req db).db
    rw [afterRefresh_reservations] at hnew
    exact ⟨hi, hr, new, hnew⟩
  · rw [heq] at hok
    cases hok

theorem perform_reserve {db' : Db} (hstep : db.perform (.reserve req) = some db') : quotaReserve req db = .ok db' := by
  rw [Db.perform] at hstep
  cases hok : quotaReserve req db with
  | ok d =>
    rw [hok] at hstep
    cases hstep
    rfl
  | error e =>
    rw [hok] at hstep
    cases hstep

/-- **Every transaction keeps the invariant.** -/
theorem Db.Inv.perform (h : db.Inv) {a : Action} (hvalid : db.Valid a) (hspares : db.Spares a) {db' : Db}
    (hstep : db.perform a = some db') : db'.Inv := by
  cases a with
  | reserve req =>
    exact (h.quotaReserve (perform_reserve hstep)).1
  | commit uuids projectId userId =>
    rw [Db.perform, Db.reservationCommit, h.finishReservations_eq ends_apply hvalid] at hstep
    cases hstep
    exact h.endReservations ends_apply _
  | rollback uuids projectId userId =>
    rw [Db.perform, Db.reservationRollback, h.finishReservations_eq ends_release hvalid] at hstep
    cases hstep
    exact h.endReservations ends_release _
  | expire currentTime =>
    rw [Db.perform, h.reservationExpire_eq] at hstep
    cases hstep
    exact h.endReservations ends_release _
  | destroyAllByProjectAndUser projectId userId =>
    cases hstep
    exact h.quotaDestroyAllByProjectAndUser hspares
  | destroyAllByProject projectId =>
    cases hstep
    exact h.quotaDestroyAllByProject projectId

/-! ## 6. What a transaction does -/

/-- The transaction ends the reservation. -/
def Ending (r : Reservation) : Action → Prop
  | .reserve _ => False
  | .commit uuids _ _ | .rollback uuids _ _ => r.uuid ∈ uuids
  | .expire currentTime => r.expire < currentTime
  | .destroyAllByProjectAndUser projectId userId => r.projectId = projectId ∧ r.userId = userId
  | .destroyAllByProject projectId => r.projectId = projectId

/-- The sum of the applied deltas that go to the row. -/
def Db.appliedTo (db : Db) (a : Action) (id : ℕ) : ℤ :=
  ((db.applied a).map fun r => if r.usageId = id then r.delta else 0).sum

/-- The effect of a transaction on finished reservations and on `in_use`. -/
structure Books (db : Db) (a : Action) (db' : Db) : Prop where
  stays : ∀ r ∈ db.reservations, r.deleted = true → r ∈ db'.reservations
  ends : ∀ r ∈ db'.reservations, Ending r a → r.deleted = true
  inUse : ∀ u ∈ db.usages, ∀ u' ∈ db'.usages, u'.id = u.id → u'.inUse = u.inUse + db.appliedTo a u.id ∨
    ∃ req, a = .reserve req ∧ ∃ res, (u.resource, u'.inUse) ∈ req.sync res

theorem softDelete_stays {found : Reservation → Bool} {r : Reservation} (hr : r ∈ db.reservations)
    (hdeleted : r.deleted = true) : r ∈ (db.softDeleteReservations found).reservations := by
  refine mem_softDeleteReservations.mpr ⟨r, hr, if_neg ?_⟩
  rw [Reservation.live, hdeleted]
  exact Bool.false_ne_true

theorem softDelete_ends {found : Reservation → Bool} {r : Reservation}
    (hr : r ∈ (db.softDeleteReservations found).reservations) (hfound : found r = true) : r.deleted = true := by
  by_contra hlive
  have := (mem_softDelete_live hr (by simpa using hlive)).2
  rw [hfound] at this
  cases this

/-- The rows after reservations are ended. -/
theorem Db.Inv.endReservations_inUse (h : db.Inv) (hf : Ends f) (found : Reservation → Bool) {u u' : QuotaUsage}
    (hu : u ∈ db.usages) (hu' : u' ∈ (db.endReservations f found).usages) (hid : u'.id = u.id) :
    u' = endRow f (db.reservations.filter fun r => r.live && found r) u := by
  obtain ⟨v, hv, rfl⟩ := List.mem_map.mp hu'
  rw [(keepsRow_endRow hf _).id] at hid
  rw [h.wf.ordered.eq hv hu hid]

/-- The rows after a soft delete. -/
theorem Db.Inv.softDeleteUsages_inUse (h : db.Inv) (found : QuotaUsage → Bool) {u u' : QuotaUsage}
    (hu : u ∈ db.usages) (hu' : u' ∈ (db.softDeleteUsages found).usages) (hid : u'.id = u.id) : u'.inUse = u.inUse := by
  obtain ⟨v, hv, rfl⟩ := mem_softDeleteUsages.mp hu'
  rw [softDeleteUsages_id] at hid
  rw [h.wf.ordered.eq hv hu hid]
  split
  · rfl
  · rfl

/-- **The books after a transaction.** -/
theorem Db.Inv.books (h : db.Inv) {a : Action} (hvalid : db.Valid a) {db' : Db} (hstep : db.perform a = some db') :
    Books db a db' := by
  cases a with
  | reserve req =>
    obtain ⟨hinv, hrefreshed, new, hnew⟩ := h.quotaReserve (perform_reserve hstep)
    refine ⟨fun r hr _ => ?_, fun r _ => nofun, fun u hu u' hu' hid => ?_⟩
    · rw [hnew]
      exact mem_append_left _ hr
    · obtain ⟨v, hv, -, hfig⟩ := hrefreshed u hu
      obtain ⟨hmem, hvid⟩ := hinv.wf.usage_eq.mp hv
      obtain rfl := hinv.wf.ordered.eq hmem hu' (hvid.trans hid.symm)
      rcases hfig with hsame | hfig
      · exact .inl (hsame.trans (Int.add_zero _).symm)
      · exact .inr ⟨req, rfl, hfig⟩
  | commit uuids projectId userId =>
    rw [Db.perform, Db.reservationCommit, h.finishReservations_eq ends_apply hvalid] at hstep
    cases hstep
    refine ⟨fun r hr => softDelete_stays hr, fun r hr hend => softDelete_ends hr (decide_eq_true hend), fun u hu u' hu' hid => ?_⟩
    rw [h.endReservations_inUse ends_apply _ hu hu' hid, endRow_apply_inUse]
    exact .inl rfl
  | rollback uuids projectId userId =>
    rw [Db.perform, Db.reservationRollback, h.finishReservations_eq ends_release hvalid] at hstep
    cases hstep
    refine ⟨fun r hr => softDelete_stays hr, fun r hr hend => softDelete_ends hr (decide_eq_true hend), fun u hu u' hu' hid => ?_⟩
    rw [h.endReservations_inUse ends_release _ hu hu' hid, endRow_release_inUse]
    exact .inl (Int.add_zero _).symm
  | expire currentTime =>
    rw [Db.perform, h.reservationExpire_eq] at hstep
    cases hstep
    refine ⟨fun r hr => softDelete_stays hr, fun r hr hend => softDelete_ends hr (decide_eq_true hend), fun u hu u' hu' hid => ?_⟩
    rw [h.endReservations_inUse ends_release _ hu hu' hid, endRow_release_inUse]
    exact .inl (Int.add_zero _).symm
  | destroyAllByProjectAndUser projectId userId =>
    cases hstep
    refine ⟨fun r hr => softDelete_stays hr, fun r hr hend => softDelete_ends hr (decide_eq_true hend), fun u hu u' hu' hid => ?_⟩
    exact .inl ((h.softDeleteUsages_inUse _ hu hu' hid).trans (Int.add_zero _).symm)
  | destroyAllByProject projectId =>
    cases hstep
    refine ⟨fun r hr => softDelete_stays hr, fun r hr hend => softDelete_ends hr (decide_eq_true hend), fun u hu u' hu' hid => ?_⟩
    exact .inl ((h.softDeleteUsages_inUse _ hu hu' hid).trans (Int.add_zero _).symm)

/-- What the transaction adds to `in_use` was live and is finished. -/
theorem Db.Inv.applied_ends (h : db.Inv) {a : Action} (hvalid : db.Valid a) {db' : Db} (hstep : db.perform a = some db')
    {r : Reservation} (hr : r ∈ db.applied a) :
    r ∈ db.reservations ∧ r.deleted = false ∧ ∃ r' ∈ db'.reservations, r'.uuid = r.uuid ∧ r'.deleted = true := by
  cases a with
  | commit uuids projectId userId =>
    rw [Db.perform, Db.reservationCommit, h.finishReservations_eq ends_apply hvalid] at hstep
    cases hstep
    obtain ⟨hmem, hcond⟩ := mem_filter.mp hr
    have hlive : r.deleted = false := by simpa [Reservation.live] using (Bool.and_eq_true_iff.mp hcond).1
    exact ⟨hmem, hlive, { r with deleted := true }, mem_softDeleteReservations.mpr ⟨r, hmem, if_pos hcond⟩, rfl, rfl⟩
  | reserve | rollback | expire | destroyAllByProjectAndUser | destroyAllByProject => cases hr

theorem applied_nodup (h : db.Inv) (a : Action) : ((db.applied a).map Reservation.uuid).Nodup := by
  have hall : (db.reservations.map Reservation.uuid).Nodup := pairwise_map.mpr (h.uuids.imp fun hlt => hlt.ne)
  cases a with
  | commit uuids projectId userId => exact hall.sublist (filter_sublist.map _)
  | reserve | rollback | expire | destroyAllByProjectAndUser | destroyAllByProject => exact nodup_nil

/-! ## 7. Runs -/

/-- The counters, and the reservations that have reached `in_use`: each once, none of them live. -/
structure Ledger (db : Db) (log : List ℕ) : Prop where
  inv : db.Inv
  once : log.Nodup
  finished : ∀ i ∈ log, ∃ r ∈ db.reservations, r.uuid = i ∧ r.deleted = true

theorem Ledger.perform {log : List ℕ} (h : Ledger db log) {a : Action} (hvalid : db.Valid a) (hspares : db.Spares a)
    {db' : Db} (hstep : db.perform a = some db') : Ledger db' (log ++ (db.applied a).map Reservation.uuid) := by
  refine ⟨h.inv.perform hvalid hspares hstep, nodup_append'.mpr ⟨h.once, applied_nodup h.inv a, fun i hi hin => ?_⟩,
    fun i hi => ?_⟩
  · obtain ⟨r, hr, hri, hdeleted⟩ := h.finished i hi
    obtain ⟨s, hs, hsi⟩ := List.mem_map.mp hin
    obtain ⟨hmem, hlive, -⟩ := h.inv.applied_ends hvalid hstep hs
    rw [h.inv.uuids.eq hr hmem (hri.trans hsi.symm), hlive] at hdeleted
    cases hdeleted
  · rcases mem_append.mp hi with hi | hi
    · obtain ⟨r, hr, hri, hdeleted⟩ := h.finished i hi
      exact ⟨r, (h.inv.books hvalid hstep).stays r hr hdeleted, hri, hdeleted⟩
    · obtain ⟨s, hs, rfl⟩ := List.mem_map.mp hi
      exact (h.inv.applied_ends hvalid hstep hs).2.2

/-- **Quota bookkeeping is exact.** -/
theorem bookkeeping {log : List ℕ} (h : Reach step (fun s a => s.1.Valid a ∧ s.1.Spares a) (Db.empty, []) (db, log)) :
    (∀ u ∈ db.usages, u.deleted = false → u.reserved = db.held u.id) ∧
    (log.Nodup ∧ ∀ r ∈ db.reservations, r.uuid ∈ log → r.deleted = true) ∧
    ∀ a, db.Valid a → ∀ db', db.perform a = some db' → Books db a db' := by
  have hledger : Ledger db log := by
    refine h.invariant (I := fun s => Ledger s.1 s.2) ⟨Db.empty_inv, nodup_nil, nofun⟩ ?_
    rintro ⟨d, l⟩ a ⟨d', l'⟩ hl ⟨hvalid, hspares⟩ hstep
    rw [step] at hstep
    cases hperform : d.perform a with
    | none =>
      rw [hperform] at hstep
      cases hstep
      exact hl
    | some d'' =>
      rw [hperform] at hstep
      cases hstep
      exact hl.perform hvalid hspares hperform
  refine ⟨hledger.inv.exact, ⟨hledger.once, fun r hr hin => ?_⟩, fun a hvalid db' hstep => hledger.inv.books hvalid hstep⟩
  obtain ⟨s, hs, hsi, hdeleted⟩ := hledger.finished _ hin
  rw [← hledger.inv.uuids.eq hs hr hsi]
  exact hdeleted

/-- A floating IP of the project. -/
def oneFloatingIp : ReserveRequest where
  projectQuotas := [("floating_ips", 10)]
  userQuotas := [("floating_ips", 10)]
  deltas := [("floating_ips", 1)]
  expire := 100
  untilRefresh := none
  maxAge := 0
  projectId := "project"
  userId := "alice"
  order := ["floating_ips"]
  sync _ := [("floating_ips", 0)]
  utcnow _ := 0
  deltas_nodup := nodup_singleton _
  order_perm := .refl _
  sync_nodup _ := nodup_singleton _

/-- The row of the whole project, with the reservation. -/
def reservedIp : Db :=
  ⟨[⟨0, "project", none, "floating_ips", 0, 1, none, 0, false⟩],
    [⟨0, 0, "project", "alice", "floating_ips", 1, 100, false⟩], 1, 1⟩

/-- After the commit. -/
def committedIp : Db :=
  ⟨[⟨0, "project", none, "floating_ips", 1, 0, none, 0, false⟩],
    [⟨0, 0, "project", "alice", "floating_ips", 1, 100, true⟩], 1, 1⟩

/-- After the user is deleted instead. -/
def leakedIp : Db :=
  ⟨[⟨0, "project", none, "floating_ips", 0, 1, none, 0, false⟩],
    [⟨0, 0, "project", "alice", "floating_ips", 1, 100, true⟩], 1, 1⟩

theorem step_reservedIp : step (Db.empty, []) (.reserve oneFloatingIp) = some (reservedIp, []) := by rfl

theorem valid_commit : reservedIp.Valid (.commit [0] "project" "alice") := by
  intro r hr _
  rw [mem_singleton.mp hr]
  exact ⟨rfl, rfl⟩

theorem bookkeeping_committedIp : (∀ u ∈ committedIp.usages, u.deleted = false → u.reserved = committedIp.held u.id) ∧
    ([0].Nodup ∧ ∀ r ∈ committedIp.reservations, r.uuid ∈ [0] → r.deleted = true) ∧
    ∀ a, committedIp.Valid a → ∀ db', committedIp.perform a = some db' → Books committedIp a db' :=
  bookkeeping (.tail (a := .commit [0] "project" "alice") (.tail (a := .reserve oneFloatingIp) .refl ⟨trivial, trivial⟩
    step_reservedIp) ⟨valid_commit, trivial⟩ rfl)

/-- The project's row keeps what the deleted user had reserved. -/
theorem reserved_leaks : ∃ db log, Reach step (fun s a => s.1.Valid a) (Db.empty, []) (db, log) ∧
    ∃ u ∈ db.usages, u.deleted = false ∧ u.reserved ≠ db.held u.id := by
  refine ⟨leakedIp, [], .tail (a := .destroyAllByProjectAndUser "project" "alice")
    (.tail (a := .reserve oneFloatingIp) .refl trivial step_reservedIp) trivial rfl, ?_⟩
  decide

end Mitaka.Nova.Quota
