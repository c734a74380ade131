/-
  Subject: Servers that allocate, release and sync the segments of one table.

  The selects, updates and inserts of the requests interleave one by one; a sync holds
  the lock of the table and is one step. `State.Single` asks of the update of a full
  request that the row it has selected is the only unallocated one that matches.
  * `State.Inv`: an allocated row has exactly one holder.
  * `step_inv`: every step that is `Single` keeps it.
  * `segments_exclusive`: what follows, in all runs of the tunnel drivers and in the
    single runs of the VLAN driver.
  * `vlan_zero_allocates_all`: VLAN 0 without a physical network takes the whole pool.
-/
import Mitaka.Lib.Run
import Mitaka.Neutron.SegmentAllocation

namespace Mitaka.Neutron.Ml2

/-! ## 1. Requests in progress -/

inductive Progress (κ : Type)
  | asked (request : Request κ)
  /-- It has selected an unallocated row. -/
  | selected (request : Request κ) (alloc : κ)
  /-- A full request about to create its row. -/
  | creating (row : Option κ)
  | held (alloc : κ)
  /-- The pool has returned `None`. -/
  | unavailable
  /-- The segment is in use, or the attempt has to be retried. -/
  | failed

structure State (κ Conf : Type) where
  table : Table κ
  requests : ℕ → Option (Progress κ)
  /-- The ranges that each server has been started with. -/
  conf : ℕ → Conf

inductive Action (κ Seg Conf : Type)
  /-- `allocate_tenant_segment`, or `reserve_provider_segment` of a segment. -/
  | ask (i : ℕ) (segment : Option Seg)
  /-- The first row that the select returns, or a random one of them. -/
  | select (i : ℕ) (row : Option κ)
  | update (i : ℕ)
  | insert (i : ℕ)
  | release (i server : ℕ)
  | sync (server : ℕ) (conf : Conf)

namespace State

variable {κ Seg Conf : Type} [DecidableEq κ]

/-- An empty table before the first sync. -/
def initial (conf : Conf) : State κ Conf := ⟨[], fun _ => none, fun _ => conf⟩

variable (s : State κ Conf)

def setRequest (i : ℕ) (p : Option (Progress κ)) : State κ Conf :=
  { s with requests := Function.update s.requests i p }

/-- The select of a request. -/
def select (request : Request κ) (row : Option κ) : Option (Progress κ) :=
  match request, row with
  | .partially filters, none => if s.table.unallocated filters = [] then some .unavailable else none
  | .partially filters, some k =>
    if k ∈ s.table.unallocated filters then some (.selected request k) else none
  | .fully filters row', none =>
    if s.table.any fun r => filters r.1 then none else some (.creating row')
  | .fully filters _, some k =>
    match s.table.get k with
    | some true => if filters k then some .failed else none
    | some false => if filters k then some (.selected request k) else none
    | none => none

/-- The update of a request that has selected a row: by primary key for a partial one, by its filters for a
full one. Without a count the one is to be retried, the other creates the row. -/
def update (request : Request κ) (alloc : κ) : Table κ × Progress κ :=
  match request with
  | .partially _ =>
    if s.table.unallocated (fun k => k = alloc) = [] then (s.table, .failed)
    else (s.table.allocate fun k => k = alloc, .held alloc)
  | .fully filters row =>
    if s.table.unallocated filters = [] then (s.table, .creating row)
    else (s.table.allocate filters, .held alloc)

/-- The insert of a full request: a duplicate has been allocated before. -/
def insert (row : Option κ) : Table κ × Progress κ :=
  match row with
  | none => (s.table, .failed)
  | some k => if k ∈ s.table.map Prod.fst then (s.table, .failed) else (s.table ++ [(k, true)], .held k)

/-- `release_segment` by a server with the ranges. -/
def releaseSegment (driver : TypeDriver κ Seg Conf) (conf : Conf) (k : κ) : Table κ :=
  if driver.inside conf k then s.table.map fun r => if r.1 = k then (r.1, false) else r else s.table.erase k

def step (driver : TypeDriver κ Seg Conf) (s : State κ Conf) : Action κ Seg Conf → Option (State κ Conf)
  | .ask i segment =>
    match s.requests i, segment with
    | none, none => some (s.setRequest i (some (.asked driver.allocateTenantSegment)))
    | none, some segment => some (s.setRequest i (some (.asked (driver.reserveProviderSegment segment))))
    | some _, _ => none
  | .select i row =>
    match s.requests i with
    | some (.asked request) => do
      let p ← s.select request row
      some (s.setRequest i (some p))
    | _ => none
  | .update i =>
    match s.requests i with
    | some (.selected request alloc) =>
      let r := s.update request alloc
      some { s.setRequest i (some r.2) with table := r.1 }
    | _ => none
  | .insert i =>
    match s.requests i with
    | some (.creating row) =>
      let r := s.insert row
      some { s.setRequest i (some r.2) with table := r.1 }
    | _ => none
  | .release i server =>
    match s.requests i with
    | some (.held k) => some { s.setRequest i none with table := s.releaseSegment driver (s.conf server) k }
    | _ => none
  | .sync server conf => some { s with table := driver.sync conf s.table, conf := Function.update s.conf server conf }

def Holds (i : ℕ) (k : κ) : Prop := s.requests i = some (.held k)

/-- A full request updates no other row than the one it has selected. -/
def Single : Action κ Seg Conf → Prop
  | .update i =>
    match s.requests i with
    | some (.selected (.fully filters _) alloc) => ∀ k ∈ s.table.unallocated filters, k = alloc
    | _ => True
  | _ => True

instance (a : Action κ Seg Conf) : Decidable (s.Single a) := by
  unfold Single
  repeat' split
  all_goals infer_instance

/-! ## 2. The invariant -/

structure Inv : Prop where
  nodup : s.table.KeysNodup
  exclusive : ∀ i j k, s.Holds i k → s.Holds j k → i = j
  allocated : ∀ k, s.table.get k = some true ↔ ∃ i, s.Holds i k
  matching : ∀ i filters row alloc, s.requests i = some (.selected (.fully filters row) alloc) → filters alloc = true

variable {s}

omit [DecidableEq κ] in
theorem requests_set (i j : ℕ) (p : Option (Progress κ)) :
    (s.setRequest i p).requests j = if j = i then p else s.requests j := Function.update_apply _ _ _ _

theorem initial_inv (conf : Conf) : Inv (initial conf : State κ Conf) :=
  ⟨List.nodup_nil, nofun, fun _ => ⟨nofun, nofun⟩, nofun⟩

variable {i : ℕ}

/-- A request that holds nothing goes on without the table being changed. -/
theorem Inv.go (h : s.Inv) {p : Option (Progress κ)} (hi : ∀ k, ¬ s.Holds i k) (hp : ∀ k, p ≠ some (.held k))
    (hm : ∀ filters row alloc, p = some (.selected (.fully filters row) alloc) → filters alloc = true) :
    (s.setRequest i p).Inv := by
  have hholds : ∀ j k, (s.setRequest i p).Holds j k ↔ s.Holds j k := by
    intro j k
    unfold Holds
    rw [requests_set]
    split_ifs with hj
    · exact ⟨fun he => absurd he (hp k), fun he => absurd (hj ▸ he) (hi k)⟩
    · exact Iff.rfl
  refine ⟨h.nodup, fun j j' k hj hj' => h.exclusive j j' k ((hholds j k).mp hj) ((hholds j' k).mp hj'),
    fun k => (h.allocated k).trans (exists_congr fun j => (hholds j k).symm), fun j filters row alloc he => ?_⟩
  rw [requests_set] at he
  split_ifs at he
  · exact hm filters row alloc he
  · exact h.matching j filters row alloc he

/-- **A request takes a segment that nobody holds**: its row, and no other, becomes allocated. -/
theorem Inv.hold (h : s.Inv) {k : κ} {t : Table κ} (hi : ∀ k, ¬ s.Holds i k) (ht : t.KeysNodup)
    (hk : s.table.get k ≠ some true)
    (hget : ∀ k', t.get k' = some true ↔ s.table.get k' = some true ∨ k' = k) :
    Inv { s.setRequest i (some (.held k)) with table := t } := by
  have hfree : ∀ j, ¬ s.Holds j k := fun j hj => hk ((h.allocated k).mpr ⟨j, hj⟩)
  have hholds : ∀ j k', Holds { s.setRequest i (some (.held k)) with table := t } j k' ↔
      s.Holds j k' ∨ (j = i ∧ k' = k) := by
    intro j k'
    show (s.setRequest i (some (.held k))).requests j = _ ↔ _
    rw [requests_set]
    split_ifs with hj
    · subst hj
      refine ⟨fun he => Or.inr ⟨rfl, ?_⟩, fun he => ?_⟩
      · cases he
        rfl
      · rw [(he.resolve_left (hi k')).2]
    · exact (or_iff_left fun he => hj he.1).symm
  refine ⟨ht, fun j j' k' hj hj' => ?_, fun k' => ?_, fun j filters row alloc he => ?_⟩
  · rcases (hholds j k').mp hj with h1 | ⟨h1, hk1⟩
    · rcases (hholds j' k').mp hj' with h2 | ⟨-, hk2⟩
      · exact h.exclusive j j' k' h1 h2
      · exact absurd (hk2 ▸ h1) (hfree j)
    · rcases (hholds j' k').mp hj' with h2 | ⟨h2, -⟩
      · exact absurd (hk1 ▸ h2) (hfree j')
      · exact h1.trans h2.symm
  · rw [hget k', h.allocated k']
    constructor
    · intro he
      rcases he with ⟨j, hj⟩ | rfl
      · exact ⟨j, (hholds j k').mpr (Or.inl hj)⟩
      · exact ⟨i, (hholds i k').mpr (Or.inr ⟨rfl, rfl⟩)⟩
    · intro he
      obtain ⟨j, hj⟩ := he
      exact ((hholds j k').mp hj).imp (fun hj => ⟨j, hj⟩) And.right
  · have he' : (s.setRequest i (some (.held k))).requests j = _ := he
    rw [requests_set] at he'
    split_ifs at he'
    · cases he'
    · exact h.matching j filters row alloc he'

theorem get_unallocated {t : Table κ} (h : t.KeysNodup) {filters : κ → Bool} :
    t.unallocated filters = [] ↔ ∀ k, filters k = true → t.get k ≠ some false := by
  rw [List.eq_nil_iff_forall_not_mem]
  exact forall_congr' fun k => by rw [Table.mem_unallocated h, not_and]

/-- The update allocates the row that the request has selected. -/
theorem Inv.update (h : s.Inv) {filters : κ → Bool} {alloc : κ} (hi : ∀ k, ¬ s.Holds i k)
    (hm : filters alloc = true) (hne : s.table.unallocated filters ≠ [])
    (hsingle : ∀ k ∈ s.table.unallocated filters, k = alloc) :
    Inv { s.setRequest i (some (.held alloc)) with table := s.table.allocate filters } := by
  have hfalse : s.table.get alloc = some false := by
    obtain ⟨k, hk⟩ := List.exists_mem_of_ne_nil _ hne
    exact hsingle k hk ▸ ((Table.mem_unallocated h.nodup).mp hk).2
  refine h.hold hi ?_ (by rw [hfalse]; exact nofun) fun k => ?_
  · show (List.map Prod.fst _).Nodup
    rw [Table.keys_allocate]
    exact h.nodup
  · rw [Table.get_allocate]
    by_cases hf : filters k = true
    · rw [if_pos hf]
      cases hg : s.table.get k with
      | none =>
        refine ⟨nofun, fun he => ?_⟩
        have hk := he.resolve_left nofun
        cases hg.symm.trans (hk ▸ hfalse)
      | some b =>
        refine ⟨fun _ => ?_, fun _ => rfl⟩
        cases b with
        | true => exact Or.inl rfl
        | false => exact Or.inr (hsingle k ((Table.mem_unallocated h.nodup).mpr ⟨hf, hg⟩))
    · rw [if_neg hf]
      exact (or_iff_left fun he : k = alloc => hf (he ▸ hm)).symm

theorem get_free (t : Table κ) (k k' : κ) : Dict.get (t.map fun r => if r.1 = k then (r.1, false) else r) k' =
    if k' = k then (t.get k').map fun _ => false else t.get k' := by
  induction t with
  | nil => split_ifs <;> rfl
  | cons r t ih =>
    rw [List.map_cons, Dict.get_cons, Dict.get_cons, ih]
    have hkey : (if r.1 = k then (r.1, false) else r).1 = r.1 := by split_ifs <;> rfl
    rw [hkey]
    by_cases hk : r.1 = k'
    · subst hk
      by_cases hf : r.1 = k <;> simp [hf]
    · rw [if_neg hk, if_neg hk]

/-- The released row is unallocated or gone, and the others as before. -/
theorem get_releaseSegment (driver : TypeDriver κ Seg Conf) (conf : Conf) (k k' : κ) :
    (s.releaseSegment driver conf k).get k' = some true ↔ s.table.get k' = some true ∧ k' ≠ k := by
  unfold releaseSegment
  split_ifs
  · rw [get_free]
    split_ifs with hk
    · refine ⟨fun he => ?_, fun he => absurd hk he.2⟩
      obtain ⟨b, -, hb⟩ := Option.map_eq_some_iff.mp he
      cases hb
    · exact (and_iff_left hk).symm
  · rw [Dict.get_erase]
    split_ifs with hk
    · exact ⟨nofun, fun he => absurd hk.symm he.2⟩
    · exact (and_iff_left (Ne.symm hk)).symm

theorem nodup_releaseSegment (h : s.table.KeysNodup) (driver : TypeDriver κ Seg Conf) (conf : Conf) (k : κ) :
    (s.releaseSegment driver conf k).KeysNodup := by
  unfold releaseSegment
  split_ifs
  · show (List.map Prod.fst _).Nodup
    rw [List.map_map]
    have hkeys : ∀ r ∈ s.table, (Prod.fst ∘ fun r => if r.1 = k then (r.1, false) else r) r = Prod.fst r := by
      intro r _
      show (if r.1 = k then (r.1, false) else r).1 = r.1
      split_ifs <;> rfl
    rw [List.map_congr_left hkeys]
    exact h
  · exact h.sublist (List.Sublist.map _ List.filter_sublist)

theorem Inv.release (h : s.Inv) (driver : TypeDriver κ Seg Conf) (conf : Conf) {k : κ} (hi : s.Holds i k) :
    Inv { s.setRequest i none with table := s.releaseSegment driver conf k } := by
  have hholds : ∀ j k', Holds { s.setRequest i none with table := s.releaseSegment driver conf k } j k' ↔
      j ≠ i ∧ s.Holds j k' := by
    intro j k'
    show (s.setRequest i none).requests j = _ ↔ _
    rw [requests_set]
    split_ifs with hj
    · exact ⟨nofun, fun he => absurd hj he.1⟩
    · exact (and_iff_right hj).symm
  refine ⟨nodup_releaseSegment h.nodup driver conf k, fun j j' k' hj hj' => ?_, fun k' => ?_,
    fun j filters row alloc he => ?_⟩
  · exact h.exclusive j j' k' ((hholds j k').mp hj).2 ((hholds j' k').mp hj').2
  · rw [get_releaseSegment, h.allocated k']
    constructor
    · intro he
      obtain ⟨⟨j, hj⟩, hne⟩ := he
      refine ⟨j, (hholds j k').mpr ⟨fun hji => hne ?_, hj⟩⟩
      cases (hji ▸ hj).symm.trans hi
      rfl
    · intro he
      obtain ⟨j, hj⟩ := he
      obtain ⟨hne, hj⟩ := (hholds j k').mp hj
      exact ⟨⟨j, hj⟩, fun hk => hne (h.exclusive j i k (hk ▸ hj) hi)⟩
  · have he' : (s.setRequest i none).requests j = _ := he
    rw [requests_set] at he'
    split_ifs at he'
    exact h.matching j filters row alloc he'

/-- What a select makes of a request. -/
theorem select_spec {request : Request κ} {row : Option κ} {p : Progress κ} (h : s.select request row = some p) :
    (∃ filters, request = .partially filters ∧ p = .unavailable ∧ s.table.unallocated filters = []) ∨
    (∃ alloc, p = .selected request alloc ∧ ∀ filters row', request = .fully filters row' → filters alloc = true) ∨
    (∃ row', p = .creating row') ∨ p = .failed := by
  unfold select at h
  split at h
  · split_ifs at h with hu
    cases h
    exact Or.inl ⟨_, rfl, rfl, hu⟩
  · split_ifs at h
    cases h
    exact Or.inr (Or.inl ⟨_, rfl, nofun⟩)
  · split_ifs at h
    cases h
    exact Or.inr (Or.inr (Or.inl ⟨_, rfl⟩))
  · split at h
    · split_ifs at h
      cases h
      exact Or.inr (Or.inr (Or.inr rfl))
    · split_ifs at h with hf
      cases h
      refine Or.inr (Or.inl ⟨_, rfl, fun filters row' he => ?_⟩)
      cases he
      exact hf
    · cases h

variable {driver : TypeDriver κ Seg Conf} {a : Action κ Seg Conf} {s' : State κ Conf}

/-- **Every single step keeps each allocated row with one holder.** -/
theorem step_inv (h : s.Inv)
    (ha : s.Single a) (hs : s.step driver a = some s') : s'.Inv := by
  cases a with
  | ask i segment =>
    have hnone : s.requests i = none → ∀ k, ¬ s.Holds i k := fun hi k hk => by cases hi.symm.trans hk
    simp only [step] at hs
    split at hs
    · rename_i hi
      cases hs
      exact h.go (hnone hi) nofun nofun
    · rename_i hi
      cases hs
      exact h.go (hnone hi) nofun nofun
    · cases hs
  | select i row =>
    simp only [step] at hs
    split at hs
    · rename_i request hi
      obtain ⟨p, hp, hs⟩ := Option.bind_eq_some_iff.mp hs
      cases hs
      have hno : ∀ k, ¬ s.Holds i k := fun k hk => by cases hi.symm.trans hk
      rcases select_spec hp with ⟨filters, -, rfl, -⟩ | ⟨alloc, rfl, hf⟩ | ⟨row', rfl⟩ | rfl
      · exact h.go hno nofun nofun
      · refine h.go hno nofun fun filters row alloc' he => ?_
        cases he
        exact hf filters row rfl
      · exact h.go hno nofun nofun
      · exact h.go hno nofun nofun
    · cases hs
  | update i =>
    simp only [step] at hs
    split at hs
    · rename_i request alloc hi
      cases hs
      have hno : ∀ k, ¬ s.Holds i k := fun k hk => by cases hi.symm.trans hk
      unfold State.update
      cases request with
      | partially filters =>
        simp only
        split_ifs with hu
        · exact h.go hno nofun nofun
        · exact h.update hno (decide_eq_true rfl) hu fun k hk =>
            of_decide_eq_true ((Table.mem_unallocated h.nodup).mp hk).1
      | fully filters row =>
        simp only
        rw [Single, hi] at ha
        split_ifs with hu
        · exact h.go hno nofun nofun
        · exact h.update hno (h.matching i filters row alloc hi) hu ha
    · cases hs
  | insert i =>
    simp only [step] at hs
    split at hs
    · rename_i row hi
      cases hs
      have hno : ∀ k, ¬ s.Holds i k := fun k hk => by cases hi.symm.trans hk
      unfold State.insert
      cases row with
      | none => exact h.go hno nofun nofun
      | some k =>
        simp only
        split_ifs with hk
        · exact h.go hno nofun nofun
        · have hnone : s.table.get k = none := by
            rwa [Dict.mem_keys_iff, Bool.not_eq_true, Option.isSome_eq_false_iff, Option.isNone_iff_eq_none] at hk
          have hnodup : Dict.KeysNodup (s.table ++ [(k, true)]) := by
            show (List.map Prod.fst _).Nodup
            rw [List.map_append]
            exact h.nodup.append (List.nodup_singleton k) (List.disjoint_singleton.mpr hk)
          refine h.hold hno hnodup (by rw [hnone]; exact nofun) fun k' => ?_
          rw [← hnodup.mem_iff, List.mem_append, h.nodup.mem_iff, List.mem_singleton, Prod.mk.injEq]
          exact or_congr_right (and_iff_left rfl)
    · cases hs
  | release i server =>
    simp only [step] at hs
    split at hs
    · rename_i k hi
      cases hs
      exact h.release driver (s.conf server) hi
    · cases hs
  | sync server conf =>
    cases hs
    refine ⟨driver.nodup_sync conf s.table h.nodup, h.exclusive, fun k => ?_, h.matching⟩
    show (driver.sync conf s.table).get k = some true ↔ ∃ i, s.Holds i k
    rw [driver.get_sync conf s.table h.nodup, ← h.allocated k]
    split_ifs with ht
    · exact ⟨fun _ => ht, fun _ => rfl⟩
    · exact ⟨nofun, fun he => absurd he ht⟩
    · exact ⟨nofun, fun he => absurd he ht⟩

/-! ## 3. Runs -/

/-- **The segments are exclusive and none is lost.** -/
structure Sound (driver : TypeDriver κ Seg Conf) (s : State κ Conf) : Prop where
  exclusive : ∀ i j k, s.Holds i k → s.Holds j k → i = j
  allocated : ∀ i k, s.Holds i k → s.table.get k = some true
  /-- After a sync the unallocated rows are the configured ids that nobody holds. -/
  synced : ∀ server conf s', s.step driver (.sync server conf) = some s' →
    ∀ k, s'.table.get k = some false ↔ driver.inside conf k = true ∧ ∀ i, ¬ s'.Holds i k
  /-- The pool returns `None` to a request that sees no unallocated row. -/
  unavailable : ∀ a s' i, s.step driver a = some s' → s.requests i ≠ some .unavailable →
    s'.requests i = some .unavailable →
      ∃ filters, s.requests i = some (.asked (.partially filters)) ∧ ∀ k, filters k = true → s.table.get k ≠ some false

theorem Inv.synced (h : s.Inv) (driver : TypeDriver κ Seg Conf) (server : ℕ) (conf : Conf)
    (hs : s.step driver (.sync server conf) = some s') (k : κ) :
    s'.table.get k = some false ↔ driver.inside conf k = true ∧ ∀ i, ¬ s'.Holds i k := by
  cases hs
  have hfree : (∀ i, ¬ s.Holds i k) ↔ s.table.get k ≠ some true := by rw [Ne, h.allocated k, not_exists]
  show (driver.sync conf s.table).get k = some false ↔ _ ∧ ∀ i, ¬ s.Holds i k
  rw [driver.get_sync conf s.table h.nodup, hfree]
  split_ifs with ht hin
  · exact ⟨nofun, fun he => absurd ht he.2⟩
  · exact ⟨fun _ => ⟨hin, ht⟩, fun _ => rfl⟩
  · exact ⟨nofun, fun he => absurd he.1 hin⟩

/-- Only a select of the pool that finds nothing returns `None`. -/
theorem step_unavailable (h : s.Inv)
    (hs : s.step driver a = some s') (hi : s.requests i ≠ some .unavailable)
    (hi' : s'.requests i = some .unavailable) : ∃ filters, s.requests i = some (.asked (.partially filters)) ∧
      ∀ k, filters k = true → s.table.get k ≠ some false := by
  have hset : ∀ {j p}, s'.requests i = (s.setRequest j p).requests i → i = j ∧ p = some .unavailable := by
    intro j p he
    rw [hi', requests_set] at he
    split_ifs at he with hj
    · exact ⟨hj, he.symm⟩
    · exact absurd he.symm hi
  cases a with
  | ask j segment =>
    simp only [step] at hs
    split at hs
    · cases hs
      cases (hset rfl).2
    · cases hs
      cases (hset rfl).2
    · cases hs
  | select j row =>
    simp only [step] at hs
    split at hs
    · rename_i request hj
      obtain ⟨p, hp, hs⟩ := Option.bind_eq_some_iff.mp hs
      cases hs
      obtain ⟨rfl, he⟩ := hset rfl
      cases he
      rcases select_spec hp with ⟨filters, rfl, -, hu⟩ | ⟨alloc, he, -⟩ | ⟨row', he⟩ | he
      · exact ⟨filters, hj, (get_unallocated h.nodup).mp hu⟩
      · cases he
      · cases he
      · cases he
    · cases hs
  | update j =>
    simp only [step] at hs
    split at hs
    · rename_i request alloc _
      cases hs
      obtain ⟨-, he⟩ := hset rfl
      unfold State.update at he
      cases request with
      | partially filters =>
        simp only at he
        split_ifs at he <;> cases he
      | fully filters row =>
        simp only at he
        split_ifs at he <;> cases he
    · cases hs
  | insert j =>
    simp only [step] at hs
    split at hs
    · rename_i row _
      cases hs
      obtain ⟨-, he⟩ := hset rfl
      unfold State.insert at he
      cases row with
      | none => cases he
      | some k =>
        simp only at he
        split_ifs at he <;> cases he
    · cases hs
  | release j server =>
    simp only [step] at hs
    split at hs
    · cases hs
      cases (hset rfl).2
    · cases hs
  | sync server conf =>
    cases hs
    exact absurd hi' hi

theorem Inv.sound (h : s.Inv) (driver : TypeDriver κ Seg Conf) : s.Sound driver where
  exclusive := h.exclusive
  allocated := fun i k hk => (h.allocated k).mpr ⟨i, hk⟩
  synced := fun server conf _ hs => h.synced driver server conf hs
  unavailable := fun _ _ _ hs hi hi' => step_unavailable h hs hi hi'

/-! ## 4. Tunnels and VLANs -/

/-- The filters of a full request match one row at most. -/
def Narrow (request : Request κ) : Prop :=
  ∀ filters row, request = .fully filters row → ∀ k k', filters k = true → filters k' = true → k = k'

/-- All requests in progress are narrow. -/
def AllNarrow (s : State κ Conf) : Prop :=
  ∀ i request, s.requests i = some (.asked request) ∨ (∃ alloc, s.requests i = some (.selected request alloc)) →
    Narrow request

omit [DecidableEq κ] in
theorem AllNarrow.set (h : s.AllNarrow) {p : Option (Progress κ)}
    (hp : ∀ request, p = some (.asked request) ∨ (∃ alloc, p = some (.selected request alloc)) → Narrow request) :
    (s.setRequest i p).AllNarrow := by
  intro j request hj
  simp only [requests_set] at hj
  split_ifs at hj
  · exact hp request hj
  · exact h j request hj

/-- A driver whose requests are narrow has narrow requests only. -/
theorem step_allNarrow
    (ht : Narrow driver.allocateTenantSegment) (hr : ∀ segment, Narrow (driver.reserveProviderSegment segment))
    (h : s.AllNarrow) (hs : s.step driver a = some s') : s'.AllNarrow := by
  have hasked : ∀ {i request'}, Narrow request' → (s.setRequest i (some (.asked request'))).AllNarrow := by
    intro i request' hn
    refine h.set fun request he => ?_
    rcases he with he | ⟨alloc, he⟩
    · cases he
      exact hn
    · cases he
  have hother : ∀ {i p}, (∀ request, p ≠ some (.asked request)) → (∀ request alloc, p ≠ some (.selected request alloc)) →
      (s.setRequest i p).AllNarrow := by
    intro i p h1 h2
    refine h.set fun request he => ?_
    rcases he with he | ⟨alloc, he⟩
    · exact absurd he (h1 request)
    · exact absurd he (h2 request alloc)
  cases a with
  | ask i segment =>
    simp only [step] at hs
    split at hs
    · cases hs
      exact hasked ht
    · cases hs
      exact hasked (hr _)
    · cases hs
  | select i row =>
    simp only [step] at hs
    split at hs
    · rename_i request hi
      obtain ⟨p, hp, hs⟩ := Option.bind_eq_some_iff.mp hs
      cases hs
      rcases select_spec hp with ⟨filters, -, rfl, -⟩ | ⟨alloc, rfl, -⟩ | ⟨row', rfl⟩ | rfl
      · exact hother nofun nofun
      · refine h.set fun request' he => ?_
        rcases he with he | ⟨alloc', he⟩
        · cases he
        · cases he
          exact h i request (Or.inl hi)
      · exact hother nofun nofun
      · exact hother nofun nofun
    · cases hs
  | update i =>
    simp only [step] at hs
    split at hs
    · rename_i request alloc hi
      cases hs
      unfold State.update
      cases request with
      | partially filters =>
        simp only
        split_ifs
        · exact hother nofun nofun
        · exact hother nofun nofun
      | fully filters row =>
        simp only
        split_ifs
        · exact hother nofun nofun
        · exact hother nofun nofun
    · cases hs
  | insert i =>
    simp only [step] at hs
    split at hs
    · rename_i row hi
      cases hs
      unfold State.insert
      cases row with
      | none => exact hother nofun nofun
      | some k =>
        simp only
        split_ifs
        · exact hother nofun nofun
        · exact hother nofun nofun
    · cases hs
  | release i server =>
    simp only [step] at hs
    split at hs
    · cases hs
      exact hother nofun nofun
    · cases hs
  | sync server conf =>
    cases hs
    exact h

/-- Narrow requests update the row that they have selected. -/
theorem AllNarrow.single (h : s.AllNarrow) (hi : s.Inv) (a : Action κ Seg Conf) : s.Single a := by
  cases a with
  | update i =>
    unfold Single
    simp only
    split
    · rename_i filters row alloc hsel
      intro k hk
      exact h i _ (Or.inr ⟨alloc, hsel⟩) filters row rfl k alloc ((Table.mem_unallocated hi.nodup).mp hk).1
        (hi.matching i filters row alloc hsel)
    · trivial
  | _ => trivial

theorem tunnelDriver_tenant : Narrow tunnelDriver.allocateTenantSegment := fun _ _ he => nomatch he

theorem tunnelDriver_narrow (segment : Segment) : Narrow (tunnelDriver.reserveProviderSegment segment) := by
  intro filters row he k k' hk hk'
  unfold tunnelDriver at he
  simp only at he
  split at he
  · cases he
  · cases he
    exact (of_decide_eq_true hk).trans (of_decide_eq_true hk').symm

/-- **Segment allocation is exclusive and loses nothing**: in every run of a tunnel driver, and in the runs of the
VLAN driver in which a full request updates no other row than the one it has selected. -/
theorem segments_exclusive {tunnelRanges : List (ℤ × ℤ)} {t : State ℤ (List (ℤ × ℤ))}
    (ht : Reach (step tunnelDriver) (fun _ _ => True) (initial tunnelRanges) t)
    {networkRanges : VlanRanges} {v : State (String × ℤ) VlanRanges}
    (hv : Reach (step vlanDriver) (fun s a => s.Single a) (initial networkRanges) v) :
    t.Sound tunnelDriver ∧ v.Sound vlanDriver := by
  have htunnel : t.Inv ∧ t.AllNarrow := by
    refine ht.invariant (I := fun t => t.Inv ∧ t.AllNarrow) ⟨initial_inv tunnelRanges, nofun⟩ fun t a u hi _ hs => ?_
    exact ⟨step_inv hi.1 (hi.2.single hi.1 a) hs, step_allNarrow tunnelDriver_tenant tunnelDriver_narrow hi.2 hs⟩
  have hvlan : v.Inv := hv.invariant (initial_inv networkRanges) fun t a u hi ha hs => step_inv hi ha hs
  exact ⟨htunnel.1.sound tunnelDriver, hvlan.sound vlanDriver⟩

/-- One range of tunnels, and one of VLANs on a physical network. -/
def vlanRanges : VlanRanges := ⟨[("physnet1", [(100, 101)])], List.nodup_singleton _⟩

def vlan100 : Segment := ⟨some "physnet1", some 100⟩

/-- A tenant takes the tunnel that its select returns. -/
def heldTunnel : State ℤ (List (ℤ × ℤ)) := (replay (step tunnelDriver) (fun _ _ => True) (initial [])
  [.sync 0 [(1, 2)], .ask 0 none, .select 0 (some 1), .update 0]).get (by decide +kernel)

/-- A provider segment and a tenant's. -/
def heldVlans : State (String × ℤ) VlanRanges := (replay (step vlanDriver) (fun s a => s.Single a)
  (initial vlanRanges) [.sync 0 vlanRanges, .ask 0 (some vlan100), .ask 1 none, .select 0 (some ("physnet1", 100)),
    .select 1 (some ("physnet1", 100)), .update 0, .update 1]).get (by decide +kernel)

theorem segments_exclusive_held : heldTunnel.table.get 1 = some true ∧
    heldVlans.table.get ("physnet1", 100) = some true := by
  have htunnel : Reach (step tunnelDriver) (fun _ _ => True) (initial []) heldTunnel :=
    Reach.of_replay (Option.some_get _).symm
  have hvlan : Reach (step vlanDriver) (fun s a => s.Single a) (initial vlanRanges) heldVlans :=
    Reach.of_replay (Option.some_get _).symm
  obtain ⟨hsound, hsound'⟩ := segments_exclusive htunnel hvlan
  exact ⟨hsound.allocated 0 1 rfl, hsound'.allocated 0 ("physnet1", 100) rfl⟩

/-- VLAN 0 without a physical network. -/
def vlanZero : Segment := ⟨none, some 0⟩

/-- It takes the row that it finds and the rest of the pool with it. -/
def takenPool : State (String × ℤ) VlanRanges := (replay (step vlanDriver) (fun _ _ => True) (initial vlanRanges)
  [.sync 0 vlanRanges, .ask 0 (some vlanZero), .select 0 (some ("physnet1", 100)), .update 0]).get (by decide +kernel)

/-- A tenant takes the row that it has found, before its update. -/
def takenTwice : State (String × ℤ) VlanRanges := (replay (step vlanDriver) (fun _ _ => True) (initial vlanRanges)
  [.sync 0 vlanRanges, .ask 0 (some vlanZero), .select 0 (some ("physnet1", 100)), .ask 1 none,
    .select 1 (some ("physnet1", 100)), .update 1, .update 0]).get (by decide +kernel)

/-- **VLAN 0 without a physical network passes the validation, and takes every row of the pool, or a segment that
is held.** -/
theorem vlan_zero_allocates_all : validateProviderSegment vlanRanges vlanZero = .ok () ∧
    takenPool.table = [(("physnet1", 100), true), (("physnet1", 101), true)] ∧
    ¬ ∀ (conf : VlanRanges) (s : State (String × ℤ) VlanRanges),
      Reach (step vlanDriver) (fun _ _ => True) (initial conf) s → s.Sound vlanDriver := by
  refine ⟨rfl, by decide +kernel, fun h => ?_⟩
  have hsound := h vlanRanges takenTwice (Reach.of_replay (Option.some_get _).symm)
  exact absurd (hsound.exclusive 0 1 ("physnet1", 100) rfl rfl) (by decide)

end State

end Mitaka.Neutron.Ml2
