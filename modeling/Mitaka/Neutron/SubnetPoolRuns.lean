/-
  Subject: Concurrent transactions on one subnet pool.

  A transaction reads the hash of the pool's row, replaces it by compare-and-swap (the row
  is then locked until the transaction ends) and reads the stored subnets. The two reads
  and the update are steps of their own, in any order after the hash is read, so a read
  from the snapshot of the first one is covered as well. A loser of the compare-and-swap is
  rolled back and begins again. Subnets are deleted at any time.
  * `Db.Inv`: the invariant; a transaction whose hash is still current has read every
    stored subnet.
  * `allocations_exact`: the stored subnets are disjoint and inside the prefixes, and a
    transaction that commits lacks space exactly when there is none.
-/
import Mitaka.Lib.Run
import Mitaka.Neutron.SubnetAlloc

namespace Mitaka.Neutron.SubnetAlloc

open Option

variable {w : ℕ} {Tenant Hash : Type} [DecidableEq Tenant] [DecidableEq Hash]

/-! ## 1. Transactions -/

structure Transaction (w : ℕ) (Tenant Hash : Type) where
  request : SubnetRequest w Tenant
  currentHash : Hash
  /-- The stored subnets, once read. -/
  subnets : Option (List (Subnet w Tenant))
  /-- The hash written by its update, not yet visible to others. -/
  newHash : Option Hash

structure Db (w : ℕ) (Tenant Hash : Type) where
  hash : Hash
  subnets : List (Subnet w Tenant)
  transactions : ℕ → Option (Transaction w Tenant Hash)
  /-- The transaction that has updated the pool's row and not ended. -/
  lock : Option ℕ

inductive Action (w : ℕ) (Tenant Hash : Type)
  | start (i : ℕ) (request : SubnetRequest w Tenant)
  | read (i : ℕ)
  | lock (i : ℕ) (newHash : Hash)
  | finish (i : ℕ)
  | rollback (i : ℕ)
  | delete (subnetId : ℕ)

namespace Db

def initial (hash : Hash) : Db w Tenant Hash := ⟨hash, [], fun _ => none, none⟩

def setTransaction (db : Db w Tenant Hash) (i : ℕ) (t : Option (Transaction w Tenant Hash)) : Db w Tenant Hash :=
  { db with transactions := Function.update db.transactions i t }

/-- The transaction ends without a trace. -/
def abort (db : Db w Tenant Hash) (i : ℕ) : Db w Tenant Hash :=
  { db.setTransaction i none with lock := if db.lock = some i then none else db.lock }

variable {Q : Type} [Zero Q] [Add Q] [NatCast Q] [LT Q] [DecidableLT Q]
  (pow2 : ℤ → Q) (net : Netaddr w) (subnetpool : SubnetPool w Tenant)

def step (db : Db w Tenant Hash) : Action w Tenant Hash → Option (Db w Tenant Hash)
  | .start i request =>
    match db.transactions i with
    | none => some (db.setTransaction i (some ⟨request, db.hash, none, none⟩))
    | some _ => none
  | .read i => do
    let t ← db.transactions i
    some (db.setTransaction i (some { t with subnets := some db.subnets }))
  | .lock i newHash => do
    let t ← db.transactions i
    if db.lock ≠ none then none
    else if t.currentHash = db.hash then
      some { db.setTransaction i (some { t with newHash := some newHash }) with lock := some i }
    -- the update counts no row: RetryRequest
    else some (db.abort i)
  | .finish i => do
    let t ← db.transactions i
    let newHash ← t.newHash
    let subnets ← t.subnets
    match allocateSubnet pow2 net subnetpool subnets t.request with
    | .ok row => some { db.abort i with hash := newHash, subnets := row :: db.subnets }
    | .error _ => some (db.abort i)
  | .rollback i => some (db.abort i)
  | .delete subnetId => some { db with subnets := db.subnets.filter fun s => s.id ≠ subnetId }

/-- A generated UUID is new. -/
def Valid (db : Db w Tenant Hash) : Action w Tenant Hash → Prop
  | .lock _ newHash => newHash ≠ db.hash ∧ ∀ i t, db.transactions i = some t → t.currentHash ≠ newHash
  | _ => True

/-! ## 2. The invariant -/

structure Inv (db : Db w Tenant Hash) : Prop where
  disjoint : db.subnets.Pairwise fun x y => ∀ a, x.cidr.Has a → ¬ y.cidr.Has a
  inside : ∀ x ∈ db.subnets, ∀ a, x.cidr.Has a → Covers subnetpool.prefixes a
  locked : ∀ i t, db.transactions i = some t → (t.newHash.isSome ↔ db.lock = some i)
  holds : ∀ i, db.lock = some i → ∃ t, db.transactions i = some t
  current : ∀ i t, db.transactions i = some t → db.lock = some i → t.currentHash = db.hash
  fresh : ∀ i t newHash, db.transactions i = some t → t.newHash = some newHash →
    newHash ≠ db.hash ∧ ∀ j u, db.transactions j = some u → u.currentHash ≠ newHash
  hasRead : ∀ i t subnets, db.transactions i = some t → t.subnets = some subnets → t.currentHash = db.hash →
    ∀ x ∈ db.subnets, x ∈ subnets

variable {subnetpool} {db : Db w Tenant Hash}

variable {u : Transaction w Tenant Hash}

omit [DecidableEq Tenant] [DecidableEq Hash] in
theorem setTransaction_eq {i j : ℕ} {t : Option (Transaction w Tenant Hash)} :
    (db.setTransaction i t).transactions j = some u ↔ (j = i ∧ t = some u) ∨ (j ≠ i ∧ db.transactions j = some u) := by
  rw [setTransaction]
  dsimp only
  rw [Function.update_apply]
  split
  next h => exact ⟨fun hu => .inl ⟨h, hu⟩, fun hu => hu.elim And.right fun hu => absurd h hu.1⟩
  next h => exact ⟨fun hu => .inr ⟨h, hu⟩, fun hu => hu.elim (fun hu => absurd hu.1 h) And.right⟩

omit [DecidableEq Tenant] [DecidableEq Hash] in
theorem abort_eq {i j : ℕ} :
    (db.abort i).transactions j = some u ↔ j ≠ i ∧ db.transactions j = some u := by
  rw [abort, setTransaction_eq]
  exact ⟨fun hu => hu.elim (fun hu => nomatch hu.2) id, .inr⟩

omit [DecidableEq Tenant] [DecidableEq Hash] in
theorem abort_lock {i j : ℕ} : (db.abort i).lock = some j ↔ j ≠ i ∧ db.lock = some j := by
  rw [abort]
  dsimp only
  split
  next h =>
    rw [h, Option.some.injEq]
    exact ⟨nofun, fun hj => absurd hj.2.symm hj.1⟩
  next h => exact ⟨fun hj => ⟨fun heq => h (heq ▸ hj), hj⟩, And.right⟩

omit [DecidableEq Tenant] [DecidableEq Hash] in
theorem initial_inv (hash : Hash) : Inv subnetpool (initial hash) where
  disjoint := List.Pairwise.nil
  inside := nofun
  locked := nofun
  holds := nofun
  current := nofun
  fresh := nofun
  hasRead := nofun

omit [DecidableEq Tenant] [DecidableEq Hash] in
theorem Inv.abort (h : Inv subnetpool db) (i : ℕ) : Inv subnetpool (db.abort i) where
  disjoint := h.disjoint
  inside := h.inside
  locked j t ht := by
    obtain ⟨hne, ht⟩ := abort_eq.mp ht
    rw [h.locked j t ht, abort_lock, and_iff_right hne]
  holds j hj := by
    obtain ⟨hne, hj⟩ := abort_lock.mp hj
    obtain ⟨t, ht⟩ := h.holds j hj
    exact ⟨t, abort_eq.mpr ⟨hne, ht⟩⟩
  current j t ht hj := h.current j t (abort_eq.mp ht).2 (abort_lock.mp hj).2
  fresh j t newHash ht hnew := by
    obtain ⟨hne, hall⟩ := h.fresh j t newHash (abort_eq.mp ht).2 hnew
    exact ⟨hne, fun k u hu => hall k u (abort_eq.mp hu).2⟩
  hasRead j t subnets ht := h.hasRead j t subnets (abort_eq.mp ht).2

variable {i : ℕ}

omit [DecidableEq Tenant] [DecidableEq Hash] in
theorem Inv.start (h : Inv subnetpool db) (hi : db.transactions i = none) (request : SubnetRequest w Tenant) :
    Inv subnetpool (db.setTransaction i (some ⟨request, db.hash, none, none⟩)) where
  disjoint := h.disjoint
  inside := h.inside
  locked j t ht := by
    rcases setTransaction_eq.mp ht with ⟨rfl, heq⟩ | ⟨-, ht⟩
    · cases heq
      refine iff_of_false nofun fun hlock => ?_
      obtain ⟨t, ht⟩ := h.holds j hlock
      rw [hi] at ht
      cases ht
    · exact h.locked j t ht
  holds j hj := by
    obtain ⟨t, ht⟩ := h.holds j hj
    refine ⟨t, setTransaction_eq.mpr (.inr ⟨?_, ht⟩)⟩
    rintro rfl
    rw [hi] at ht
    cases ht
  current j t ht hj := by
    rcases setTransaction_eq.mp ht with ⟨rfl, heq⟩ | ⟨-, ht⟩
    · cases heq
      rfl
    · exact h.current j t ht hj
  fresh j t newHash ht hnew := by
    rcases setTransaction_eq.mp ht with ⟨rfl, heq⟩ | ⟨-, ht⟩
    · cases heq
      cases hnew
    · obtain ⟨hne, hall⟩ := h.fresh j t newHash ht hnew
      refine ⟨hne, fun k u hu => ?_⟩
      rcases setTransaction_eq.mp hu with ⟨rfl, heq⟩ | ⟨-, hu⟩
      · cases heq
        exact hne.symm
      · exact hall k u hu
  hasRead j t subnets ht hread := by
    rcases setTransaction_eq.mp ht with ⟨rfl, heq⟩ | ⟨-, ht⟩
    · cases heq
      cases hread
    · exact h.hasRead j t subnets ht hread

variable {t : Transaction w Tenant Hash}

omit [DecidableEq Tenant] [DecidableEq Hash] in
theorem Inv.read (h : Inv subnetpool db) (hi : db.transactions i = some t) :
    Inv subnetpool (db.setTransaction i (some { t with subnets := some db.subnets })) where
  disjoint := h.disjoint
  inside := h.inside
  locked j u hu := by
    rcases setTransaction_eq.mp hu with ⟨rfl, heq⟩ | ⟨-, hu⟩
    · cases heq
      exact h.locked j t hi
    · exact h.locked j u hu
  holds j hj := by
    obtain ⟨u, hu⟩ := h.holds j hj
    by_cases heq : j = i
    · exact ⟨_, setTransaction_eq.mpr (.inl ⟨heq, rfl⟩)⟩
    · exact ⟨u, setTransaction_eq.mpr (.inr ⟨heq, hu⟩)⟩
  current j u hu hj := by
    rcases setTransaction_eq.mp hu with ⟨rfl, heq⟩ | ⟨-, hu⟩
    · cases heq
      exact h.current j t hi hj
    · exact h.current j u hu hj
  fresh j u newHash hu hnew := by
    have hall : newHash ≠ db.hash ∧ ∀ k v, db.transactions k = some v → v.currentHash ≠ newHash := by
      rcases setTransaction_eq.mp hu with ⟨rfl, heq⟩ | ⟨-, hu⟩
      · cases heq
        exact h.fresh j t newHash hi hnew
      · exact h.fresh j u newHash hu hnew
    refine ⟨hall.1, fun k v hv => ?_⟩
    rcases setTransaction_eq.mp hv with ⟨rfl, heq⟩ | ⟨-, hv⟩
    · cases heq
      exact hall.2 k t hi
    · exact hall.2 k v hv
  hasRead j u subnets hu hread hhash := by
    rcases setTransaction_eq.mp hu with ⟨rfl, heq⟩ | ⟨-, hu⟩
    · cases heq
      cases hread
      exact fun x hx => hx
    · exact h.hasRead j u subnets hu hread hhash

omit [DecidableEq Tenant] [DecidableEq Hash] in
theorem Inv.lock (h : Inv subnetpool db) (hi : db.transactions i = some t)
    (hlock : db.lock = none) (hhash : t.currentHash = db.hash) {newHash : Hash} (hvalid : db.Valid (.lock i newHash)) :
    Inv subnetpool { db.setTransaction i (some { t with newHash := some newHash }) with lock := some i } where
  disjoint := h.disjoint
  inside := h.inside
  locked j u hu := by
    rcases setTransaction_eq.mp hu with ⟨rfl, heq⟩ | ⟨hne, hu⟩
    · cases heq
      exact iff_of_true rfl rfl
    · refine iff_of_false (fun hsome => ?_) fun heq => hne (Option.some.inj heq).symm
      rw [(h.locked j u hu).mp hsome] at hlock
      cases hlock
  holds j hj := ⟨_, setTransaction_eq.mpr (.inl ⟨(Option.some.inj hj).symm, rfl⟩)⟩
  current j u hu hj := by
    rcases setTransaction_eq.mp hu with ⟨rfl, heq⟩ | ⟨hne, hu⟩
    · cases heq
      exact hhash
    · exact absurd (Option.some.inj hj).symm hne
  fresh j u newHash' hu hnew := by
    have hnew' : newHash' = newHash := by
      rcases setTransaction_eq.mp hu with ⟨rfl, heq⟩ | ⟨hne, hu⟩
      · cases heq
        exact (Option.some.inj hnew).symm
      · have hsome := (h.locked j u hu).mp (isSome_of_eq_some hnew)
        rw [hlock] at hsome
        cases hsome
    subst hnew'
    refine ⟨hvalid.1, fun k v hv => ?_⟩
    rcases setTransaction_eq.mp hv with ⟨rfl, heq⟩ | ⟨-, hv⟩
    · cases heq
      exact hvalid.2 k t hi
    · exact hvalid.2 k v hv
  hasRead j u subnets hu hread hcur := by
    rcases setTransaction_eq.mp hu with ⟨rfl, heq⟩ | ⟨-, hu⟩
    · cases heq
      exact h.hasRead j t subnets hi hread hcur
    · exact h.hasRead j u subnets hu hread hcur

variable {subnets : List (Subnet w Tenant)}

omit [DecidableEq Tenant] [DecidableEq Hash] in
/-- What is free of all it has read is free of all that is stored. -/
theorem Inv.commit (h : Inv subnetpool db) (hi : db.transactions i = some t)
    {newHash : Hash} (hnew : t.newHash = some newHash) (hread : t.subnets = some subnets)
    {row : Subnet w Tenant} (hfree : Free subnetpool.prefixes subnets row.cidr) :
    Inv subnetpool { db.abort i with hash := newHash, subnets := row :: db.subnets } := by
  have hlock := (h.locked i t hi).mp (isSome_of_eq_some hnew)
  have hstored := h.hasRead i t subnets hi hread (h.current i t hi hlock)
  have hfresh := h.fresh i t newHash hi hnew
  have hother : ∀ j u, (db.abort i).transactions j = some u → ¬ (db.abort i).lock = some j := fun j u hu hj =>
    (abort_eq.mp hu).1 (Option.some.inj (hlock.symm.trans (abort_lock.mp hj).2)).symm
  refine ⟨List.pairwise_cons.mpr ⟨fun x hx => hfree.disjoint x (hstored x hx), h.disjoint⟩, ?_, (h.abort i).locked,
    (h.abort i).holds, fun j u hu hj => absurd hj (hother j u hu), ?_, ?_⟩
  · intro x hx
    rcases List.mem_cons.mp hx with rfl | hx
    · exact hfree.inside
    · exact h.inside x hx
  · intro j u newHash' hu hnew'
    exact absurd (((h.abort i).locked j u hu).mp (isSome_of_eq_some hnew')) (hother j u hu)
  · intro j u subnets' hu _ hcur
    exact absurd hcur (hfresh.2 j u (abort_eq.mp hu).2)

omit [DecidableEq Tenant] [DecidableEq Hash] in
theorem Inv.delete (h : Inv subnetpool db) (subnetId : ℕ) :
    Inv subnetpool { db with subnets := db.subnets.filter fun s => s.id ≠ subnetId } where
  disjoint := h.disjoint.filter _
  inside x hx := h.inside x (List.mem_filter.mp hx).1
  locked := h.locked
  holds := h.holds
  current := h.current
  fresh := h.fresh
  hasRead i t subnets hi hread hcur x hx := h.hasRead i t subnets hi hread hcur x (List.mem_filter.mp hx).1

variable {pow2 net}

/-- **Every step keeps the invariant.** -/
theorem Inv.step (hnet : net.Exact) (h : Inv subnetpool db) {a : Action w Tenant Hash} (hvalid : db.Valid a)
    {db' : Db w Tenant Hash} (hstep : step pow2 net subnetpool db a = some db') : Inv subnetpool db' := by
  cases a with
  | start i request =>
    rw [Db.step] at hstep
    split at hstep
    next hi =>
      cases hstep
      exact h.start hi request
    next => cases hstep
  | read i =>
    obtain ⟨t, hi, hstep⟩ := bind_eq_some_iff.mp hstep
    cases hstep
    exact h.read hi
  | lock i newHash =>
    obtain ⟨t, hi, hstep⟩ := bind_eq_some_iff.mp hstep
    split at hstep
    next => cases hstep
    next hlock =>
      split at hstep
      next hhash =>
        cases hstep
        exact h.lock hi (not_not.mp hlock) hhash hvalid
      next =>
        cases hstep
        exact h.abort i
  | finish i =>
    obtain ⟨t, hi, hstep⟩ := bind_eq_some_iff.mp hstep
    obtain ⟨newHash, hnew, hstep⟩ := bind_eq_some_iff.mp hstep
    obtain ⟨subnets, hread, hstep⟩ := bind_eq_some_iff.mp hstep
    split at hstep
    next row hok =>
      cases hstep
      exact h.commit hi hnew hread (allocateSubnet_ok hnet hok).1
    next =>
      cases hstep
      exact h.abort i
  | rollback i =>
    cases hstep
    exact h.abort i
  | delete subnetId =>
    cases hstep
    exact h.delete subnetId

/-! ## 3. What a transaction has read -/

/-- A list of a transaction whose hash is current was read in this step, or before it under the same hash. -/
theorem Inv.read_cases (h : Inv subnetpool db) {a : Action w Tenant Hash} {db' : Db w Tenant Hash}
    (hstep : Db.step pow2 net subnetpool db a = some db') {j : ℕ}
    (hu : db'.transactions j = some u) (hread : u.subnets = some subnets)
    (hcur : u.currentHash = db'.hash) :
    subnets = db'.subnets ∨
      ∃ t, db.transactions j = some t ∧ t.subnets = some subnets ∧ t.currentHash = db.hash ∧ db'.hash = db.hash := by
  cases a with
  | start i request =>
    rw [Db.step] at hstep
    split at hstep
    next hi =>
      cases hstep
      rcases setTransaction_eq.mp hu with ⟨-, heq⟩ | ⟨-, hu⟩
      · cases heq
        cases hread
      · exact .inr ⟨u, hu, hread, hcur, rfl⟩
    next => cases hstep
  | read i =>
    obtain ⟨t, hi, hstep⟩ := bind_eq_some_iff.mp hstep
    cases hstep
    rcases setTransaction_eq.mp hu with ⟨-, heq⟩ | ⟨-, hu⟩
    · cases heq
      exact .inl (Option.some.inj hread).symm
    · exact .inr ⟨u, hu, hread, hcur, rfl⟩
  | lock i newHash =>
    obtain ⟨t, hi, hstep⟩ := bind_eq_some_iff.mp hstep
    split at hstep
    next => cases hstep
    next =>
      split at hstep
      next =>
        cases hstep
        rcases setTransaction_eq.mp hu with ⟨rfl, heq⟩ | ⟨-, hu⟩
        · cases heq
          exact .inr ⟨t, hi, hread, hcur, rfl⟩
        · exact .inr ⟨u, hu, hread, hcur, rfl⟩
      next =>
        cases hstep
        exact .inr ⟨u, (abort_eq.mp hu).2, hread, hcur, rfl⟩
  | finish i =>
    obtain ⟨t, hi, hstep⟩ := bind_eq_some_iff.mp hstep
    obtain ⟨newHash, hnew, hstep⟩ := bind_eq_some_iff.mp hstep
    obtain ⟨list, -, hstep⟩ := bind_eq_some_iff.mp hstep
    split at hstep
    next row hok =>
      cases hstep
      exact absurd hcur ((h.fresh i t newHash hi hnew).2 j u (abort_eq.mp hu).2)
    next =>
      cases hstep
      exact .inr ⟨u, (abort_eq.mp hu).2, hread, hcur, rfl⟩
  | rollback i =>
    cases hstep
    exact .inr ⟨u, (abort_eq.mp hu).2, hread, hcur, rfl⟩
  | delete subnetId =>
    cases hstep
    exact .inr ⟨u, hu, hread, hcur, rfl⟩

/-- The list was stored in an earlier state of the run with the same hash. -/
theorem exists_past (hnet : net.Exact) {hash : Hash} (h : Reach (Db.step pow2 net subnetpool) Valid (initial hash) db)
    (hi : db.transactions i = some t)
    (hread : t.subnets = some subnets) (hcur : t.currentHash = db.hash) :
    ∃ past, Reach (Db.step pow2 net subnetpool) Valid (initial hash) past ∧
      Reach (Db.step pow2 net subnetpool) Valid past db ∧ past.hash = db.hash ∧ past.subnets = subnets := by
  induction h generalizing i t with
  | refl => cases hi
  | tail h hvalid hstep ih =>
    have hinv := h.invariant (initial_inv hash) fun _ _ _ hI hv hs => Inv.step hnet hI hv hs
    rcases hinv.read_cases hstep hi hread hcur with rfl | ⟨t', hi', hread', hcur', hhash⟩
    · exact ⟨_, .tail h hvalid hstep, .refl, rfl, rfl⟩
    · obtain ⟨past, hpast, hrun, hph, hps⟩ := ih hi' hread' hcur'
      exact ⟨past, hpast, .tail hrun hvalid hstep, hph.trans hhash.symm, hps⟩

variable (pow2 net subnetpool) in
/-- What the transaction that holds the row decides, on the subnets it has read. -/
structure Decision (subnets : List (Subnet w Tenant)) (request : SubnetRequest w Tenant) : Prop where
  any : ∀ tenantId subnetId prefixlen h, request = .any tenantId subnetId prefixlen h →
    (LacksSpace (allocateSubnet pow2 net subnetpool subnets request) ↔
      Admitted pow2 subnetpool subnets prefixlen ∧
        ¬ ∃ n : IPNetwork w, n.prefixlen = prefixlen ∧ Free subnetpool.prefixes subnets n)
  specific : ∀ tenantId subnetId cidr, request = .specific tenantId subnetId cidr →
    (LacksSpace (allocateSubnet pow2 net subnetpool subnets request) ↔
      Admitted pow2 subnetpool subnets cidr.prefixlen ∧
        ((∃ a, cidr.Has a ∧ ¬ Covers subnetpool.prefixes a) ∨ ∃ s ∈ subnets, ∃ a, cidr.Has a ∧ s.cidr.Has a))

omit [DecidableEq Hash] in
theorem decision (hnet : net.Exact) (subnets : List (Subnet w Tenant)) (request : SubnetRequest w Tenant) :
    Decision pow2 net subnetpool subnets request where
  any := by
    rintro tenantId subnetId prefixlen h rfl
    exact lacksSpace_any_iff hnet
  specific := by
    rintro tenantId subnetId cidr rfl
    rw [lacksSpace_specific_iff hnet]
    refine and_congr_right' ⟨fun hno => ?_, ?_⟩
    · by_contra hnone
      push Not at hnone
      exact hno ⟨hnone.1, fun s hs a ha => hnone.2 s hs a ha⟩
    · rintro (⟨a, ha, hout⟩ | ⟨s, hs, a, ha, hsa⟩) hfree
      · exact hout (hfree.inside a ha)
      · exact hfree.disjoint s hs a ha hsa

/-- **Subnets are allocated disjointly and completely.** -/
theorem allocations_exact (hnet : net.Exact) {hash : Hash}
    (h : Reach (Db.step pow2 net subnetpool) Valid (initial hash) db) :
    (db.subnets.Pairwise fun x y => ∀ a, x.cidr.Has a → ¬ y.cidr.Has a) ∧
    (∀ x ∈ db.subnets, ∀ a, x.cidr.Has a → Covers subnetpool.prefixes a) ∧
    ∀ i t subnets, db.transactions i = some t → db.lock = some i → t.subnets = some subnets →
      Decision pow2 net subnetpool subnets t.request ∧ (∀ x ∈ db.subnets, x ∈ subnets) ∧
      ∃ past, Reach (Db.step pow2 net subnetpool) Valid (initial hash) past ∧
        Reach (Db.step pow2 net subnetpool) Valid past db ∧ past.hash = db.hash ∧ past.subnets = subnets := by
  have hinv : Inv subnetpool db := h.invariant (initial_inv hash) fun _ _ _ hI hv hs => Inv.step hnet hI hv hs
  refine ⟨hinv.disjoint, hinv.inside, fun i t subnets hi hlock hread => ?_⟩
  have hcur := hinv.current i t hi hlock
  exact ⟨decision hnet subnets t.request, hinv.hasRead i t subnets hi hread hcur, exists_past hnet h hi hread hcur⟩

/-- A pool with the prefix 10.0.0.0/8. -/
def pool10 : SubnetPool 32 Unit := ⟨(), 4, [⟨0x0A000000, 8, by decide, by decide⟩], 8, 32, none⟩

/-- For a subnet of length 24. -/
def request24 : SubnetRequest 32 Unit := .any () 1 24 (by decide)

/-- The request's transaction, after its first read. -/
def started24 : Db 32 Unit ℕ := (initial 0).setTransaction 0 (some ⟨request24, 0, none, none⟩)

/-- It has locked the row and read that nothing is stored. -/
def locked24 : Db 32 Unit ℕ :=
  { started24.setTransaction 0 (some ⟨request24, 0, none, some 1⟩) with lock := some 0 }.setTransaction 0
    (some ⟨request24, 0, some [], some 1⟩)

theorem valid_started24 : started24.Valid (.lock 0 1) := by
  refine ⟨Nat.one_ne_zero, fun i u hu => ?_⟩
  rcases setTransaction_eq.mp hu with ⟨-, heq⟩ | ⟨-, hu⟩
  · cases heq
    exact Nat.zero_ne_one
  · cases hu

theorem reach_locked24 : Reach (Db.step (fun z : ℤ => (2 : ℚ) ^ z) (Netaddr.decomposing 32) pool10) Valid (initial 0)
    locked24 :=
  .tail (a := .read 0) (.tail (a := .lock 0 1) (.tail (a := .start 0 request24) .refl trivial rfl) valid_started24 rfl)
    trivial rfl

theorem allocations_exact_locked24 :
    Decision (fun z : ℤ => (2 : ℚ) ^ z) (Netaddr.decomposing 32) pool10 locked24.subnets request24 :=
  ((allocations_exact (Netaddr.decomposing_exact 32) reach_locked24).2.2 0 ⟨request24, 0, some [], some 1⟩ [] rfl rfl rfl).1

end Db

end Mitaka.Neutron.SubnetAlloc
