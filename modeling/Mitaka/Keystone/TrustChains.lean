/-
  Subject: Chains of trusts never widen.

  `Inv`: each redelegated trust hangs on a stored one (`Link`) that has its roles, expires no
  earlier and has a larger count. Creating, consuming and deleting keep it; on such chains
  a request within the bounds of its parent is within those of every ancestor
  (`validate_pedigree`), and a deletion takes all that hangs on the trust with it
  (`deleteTrust_spec`).
  * **`trust_chains`** -- over whole runs.
-/
import Mitaka.Lib.Fallible
import Mitaka.Lib.Run
import Mitaka.Keystone.Trust

namespace Mitaka.Keystone.Trusts

open Fallible

variable {max : ℤ} {db db' : Db} {env : Env} {now i p fuel : ℕ} {t u : Trust} {r : Request}

/-! ## 1. The links of a chain -/

/-- The expiry of a trust and of the one it hangs on. -/
def ExpiryWithin : Option ℕ → Option ℕ → Prop
  | none, none => True
  | some e, some r => e ≤ r
  | _, _ => False

theorem ExpiryWithin.refl (e : Option ℕ) : ExpiryWithin e e := by
  cases e with
  | none => trivial
  | some e => exact Nat.le_refl e

theorem ExpiryWithin.trans {a b c : Option ℕ} (hab : ExpiryWithin a b) (hbc : ExpiryWithin b c) : ExpiryWithin a c := by
  match a, b, c, hab, hbc with
  | none, none, none, _, _ => trivial
  | some _, some _, some _, hab, hbc => exact Nat.le_trans hab hbc

/-- The trust is within what it hangs on. -/
structure Link (max : ℤ) (parent child : Trust) : Prop where
  roles : ∀ role ∈ child.roles, role ∈ parent.roles
  expiry : ExpiryWithin child.expiresAt parent.expiresAt
  count : ∃ c d, child.redelegationCount = some c ∧ parent.redelegationCount = some d ∧ 0 ≤ c ∧ c < d ∧ d ≤ max
  uses : child.remainingUses = none

theorem Link.trans {parent child grandchild : Trust} (h : Link max parent child) (h' : Link max child grandchild) :
    Link max parent grandchild where
  roles role hrole := h.roles role (h'.roles role hrole)
  expiry := h'.expiry.trans h.expiry
  count := by
    obtain ⟨c, d, hc, hd, -, hlt, hmax⟩ := h.count
    obtain ⟨b, c', hb, hc', hb0, hlt', -⟩ := h'.count
    rw [hc] at hc'
    cases hc'
    exact ⟨b, d, hb, hd, hb0, hlt'.trans hlt, hmax⟩
  uses := h'.uses

structure Inv (max : ℤ) (db : Db) : Prop where
  keys : db.KeysNodup
  bound : ∀ {i t}, db.get i = some t → ∃ c, t.redelegationCount = some c ∧ c.toNat ≤ max.toNat
  link : ∀ {i t p}, db.get i = some t → t.redelegatedTrustId = some p → ∃ u, db.get p = some u ∧ Link max u t

/-- An undeleted trust hangs on an undeleted one. -/
def Closed (db : Db) : Prop :=
  ∀ {i t p}, db.get i = some t → t.deletedAt = none → t.redelegatedTrustId = some p → ∃ u, db.get p = some u ∧ u.deletedAt = none

/-! ## 2. Validation -/

theorem driverGetTrust_eq_ok : driverGetTrust now db i = .ok t ↔
    db.get i = some t ∧ t.deletedAt = none ∧ ¬ t.Expired now ∧ ¬ t.UsedUp := by
  rw [driverGetTrust]
  cases hget : db.get i with
  | none => exact ⟨nofun, nofun⟩
  | some t' =>
    dsimp only
    rw [error_ite_eq_ok, Except.ok.injEq, Option.some.injEq, not_or, not_or, Option.not_isSome_iff_eq_none]
    constructor
    · rintro ⟨h, rfl⟩
      exact ⟨rfl, h⟩
    · rintro ⟨rfl, h⟩
      exact ⟨h, rfl⟩

theorem checkExpiry_eq_ok {a b e : Option ℕ} :
    checkExpiry a b = .ok e ↔ a = none ∧ e = b ∨ a.isSome ∧ e = a ∧ ExpiryWithin a b := by
  cases a with
  | none =>
    rw [checkExpiry, Except.ok.injEq]
    exact ⟨fun h => .inl ⟨rfl, h.symm⟩, fun h => h.elim (fun h => h.2.symm) fun h => nomatch h.1⟩
  | some a =>
    cases b with
    | none => exact ⟨nofun, fun h => h.elim nofun fun h => h.2.2.elim⟩
    | some b =>
      rw [checkExpiry, error_ite_eq_ok, Except.ok.injEq, Nat.not_lt]
      constructor
      · rintro ⟨hle, rfl⟩
        exact .inr ⟨rfl, rfl, hle⟩
      · rintro (⟨h, -⟩ | ⟨-, rfl, hle⟩)
        · cases h
        · exact ⟨hle, rfl⟩

variable {roles : List ℕ}

/-- When validation passes, and the expiry it leaves. -/
theorem validateRedelegation_eq_ok {remainingUses : Option ℤ} {expiresAt e : Option ℕ} :
    validateRedelegation max u remainingUses expiresAt roles = .ok e ↔
      (∃ d, u.redelegationCount = some d ∧ 0 < d ∧ d ≤ max) ∧ remainingUses = none ∧ (∀ role ∈ roles, role ∈ u.roles) ∧
        (expiresAt = none ∧ e = u.expiresAt ∨ expiresAt.isSome ∧ e = expiresAt ∧ ExpiryWithin expiresAt u.expiresAt) := by
  rw [validateRedelegation]
  cases u.redelegationCount with
  | none => exact ⟨nofun, fun h => nomatch h.1.choose_spec.1⟩
  | some d =>
    dsimp only
    rw [error_ite_eq_ok, error_ite_eq_ok, bind_eq_ok, not_not, Option.not_isSome_iff_eq_none]
    have hd : (∃ d', some d = some d' ∧ 0 < d' ∧ d' ≤ max) ↔ 0 < d ∧ d ≤ max := by
      constructor
      · rintro ⟨d', hd, h⟩
        cases hd
        exact h
      · exact fun h => ⟨d, rfl, h⟩
    rw [hd]
    refine and_congr_right fun _ => and_congr_right fun _ => ?_
    constructor
    · rintro ⟨e', he, h⟩
      obtain ⟨hroles, h⟩ := ite_error_eq_ok.mp h
      cases h
      exact ⟨hroles, checkExpiry_eq_ok.mp he⟩
    · rintro ⟨hroles, he⟩
      exact ⟨e, checkExpiry_eq_ok.mpr he, if_pos hroles⟩

/-- The trusts of a pedigree. -/
theorem pedigree_spec (hinv : Inv max db) {chain : List Trust} (h : getTrustPedigree now db fuel i = .ok chain) :
    ∃ u rest, chain = u :: rest ∧ db.get i = some u ∧ u.deletedAt = none ∧ ∀ t ∈ rest, Link max t u := by
  induction fuel generalizing i chain with
  | zero => cases h
  | succ fuel ih =>
    rw [getTrustPedigree, bind_eq_ok] at h
    obtain ⟨u, hu, h⟩ := h
    obtain ⟨hget, hdeleted, -⟩ := driverGetTrust_eq_ok.mp hu
    cases hparent : u.redelegatedTrustId with
    | none =>
      rw [hparent] at h
      cases h
      exact ⟨u, [], rfl, hget, hdeleted, nofun⟩
    | some p =>
      rw [hparent] at h
      dsimp only at h
      rw [bind_eq_ok] at h
      obtain ⟨chain', hchain, h⟩ := h
      cases h
      obtain ⟨v, rest, rfl, hv, -, hrest⟩ := ih hchain
      obtain ⟨w, hw, hlink⟩ := hinv.link hget hparent
      rw [hv] at hw
      cases hw
      refine ⟨u, v :: rest, rfl, hget, hdeleted, fun t ht => ?_⟩
      rcases List.mem_cons.mp ht with rfl | ht
      · exact hlink
      · exact (hrest t ht).trans hlink

theorem driverGetTrust_of_getTrust (h : getTrust env fuel db i = .ok u) : driverGetTrust env.now db i = .ok u := by
  rw [getTrust, bind_eq_ok] at h
  obtain ⟨u', hu', hrest⟩ := h
  split at hrest
  · cases hrest
    exact hu'
  · rw [bind_eq_ok] at hrest
    obtain ⟨chain, -, hrest⟩ := hrest
    rw [bind_eq_ok] at hrest
    obtain ⟨-, -, hrest⟩ := hrest
    cases hrest
    exact hu'

/-- A trust that is read has a pedigree. -/
theorem pedigree_of_getTrust (hfuel : 0 < fuel) (h : getTrust env fuel db i = .ok u) :
    ∃ chain, getTrustPedigree env.now db fuel i = .ok chain := by
  have hu := driverGetTrust_of_getTrust h
  rw [getTrust, bind_eq_ok] at h
  obtain ⟨t, ht, h⟩ := h
  obtain rfl := Except.ok.inj (hu.symm.trans ht)
  cases hparent : u.redelegatedTrustId with
  | none =>
    obtain ⟨fuel, rfl⟩ := Nat.exists_eq_succ_of_ne_zero hfuel.ne'
    refine ⟨[u], ?_⟩
    rw [getTrustPedigree, bind_eq_ok]
    exact ⟨u, hu, by rw [hparent]⟩
  | some p =>
    rw [hparent] at h
    dsimp only at h
    rw [bind_eq_ok] at h
    obtain ⟨chain, hchain, -⟩ := h
    exact ⟨chain, hchain⟩

/-- What is within a trust passes what the trust hangs on. -/
theorem foldlM_validate {rest : List Trust} (hrest : ∀ t ∈ rest, Link max t u) {e : Option ℕ}
    (he : ExpiryWithin e u.expiresAt) (hroles : ∀ role ∈ roles, role ∈ u.roles) :
    rest.foldlM (fun e t => validateRedelegation max t none e roles) e = .ok e := by
  induction rest with
  | nil => rfl
  | cons t rest ih =>
    have hlink := hrest t List.mem_cons_self
    have hwithin := he.trans hlink.expiry
    have hok : validateRedelegation max t none e roles = .ok e := by
      obtain ⟨c, d, -, hd, hc, hlt, hmax⟩ := hlink.count
      refine validateRedelegation_eq_ok.mpr ⟨⟨d, hd, Int.lt_of_le_of_lt hc hlt, hmax⟩, rfl,
        fun role hrole => hlink.roles role (hroles role hrole), ?_⟩
      cases e with
      | none =>
        cases hexpiry : t.expiresAt with
        | none => exact .inl ⟨rfl, rfl⟩
        | some x =>
          rw [hexpiry] at hwithin
          exact hwithin.elim
      | some x => exact .inr ⟨rfl, rfl, hwithin⟩
    rw [List.foldlM_cons, hok]
    exact ih fun t ht => hrest t (List.mem_cons_of_mem _ ht)

/-- **The chain asks no more than its last trust.** -/
theorem validate_pedigree (hinv : Inv max db) {chain : List Trust} (hchain : getTrustPedigree now db fuel i = .ok chain)
    (hu : db.get i = some u) {uses : Option ℤ} {e e' : Option ℕ} :
    chain.foldlM (fun e t => validateRedelegation max t uses e roles) e = .ok e' ↔
      validateRedelegation max u uses e roles = .ok e' := by
  obtain ⟨v, rest, rfl, hv, -, hrest⟩ := pedigree_spec hinv hchain
  rw [hv] at hu
  cases hu
  rw [List.foldlM_cons, bind_eq_ok]
  have hpass : ∀ {e'}, validateRedelegation max u uses e roles = .ok e' →
      rest.foldlM (fun e t => validateRedelegation max t uses e roles) e' = .ok e' := by
    intro e' h
    obtain ⟨-, huses, hroles, he⟩ := validateRedelegation_eq_ok.mp h
    subst huses
    refine foldlM_validate hrest ?_ hroles
    rcases he with ⟨-, rfl⟩ | ⟨-, rfl, he⟩
    · exact ExpiryWithin.refl _
    · exact he
  constructor
  · rintro ⟨x, hx, h⟩
    rw [hpass hx] at h
    cases h
    exact hx
  · exact fun h => ⟨e', h, hpass h⟩

/-! ## 3. Creating -/

theorem driverCreateTrust_eq_ok : driverCreateTrust db i t = .ok db' ↔
    (db.get i = none ∧ (∀ e ∈ db, ¬ t.Duplicates e.2) ∧ t.roles.Nodup) ∧ db' = db.set i t := by
  rw [driverCreateTrust, error_ite_eq_ok, Except.ok.injEq, not_or, not_or, Option.not_isSome_iff_eq_none, not_not]
  refine and_congr (and_congr_right fun _ => and_congr_left fun _ => ?_) eq_comm
  constructor
  · exact fun h e he hdup => h ⟨e, he, hdup⟩
  · rintro h ⟨e, he, hdup⟩
    exact h e he hdup

/-- The count that a request's trust gets is a number. -/
def Request.Counted (r : Request) : Prop := r.allowRedelegation → r.redelegationCount ≠ some none

theorem Request.count_getD (hcounted : r.Counted) (d : ℤ) :
    ∃ c, r.count.getD (some d) = some c ∧ (¬ r.Redelegatable ∧ c = 0 ∨
      r.Redelegatable ∧ (r.requestedCount = none ∧ c = d ∨ r.requestedCount = some c)) := by
  rw [Request.count]
  by_cases hr : r.Redelegatable
  · rw [if_pos hr]
    cases hcount : r.redelegationCount with
    | none => exact ⟨d, rfl, .inr ⟨hr, .inl ⟨by rw [Request.requestedCount, hcount]; rfl, rfl⟩⟩⟩
    | some c =>
      cases c with
      | none => exact absurd hcount (hcounted hr.1)
      | some c => exact ⟨c, rfl, .inr ⟨hr, .inr (by rw [Request.requestedCount, hcount]; rfl)⟩⟩
  · rw [if_neg hr]
    exact ⟨0, rfl, .inl ⟨hr, rfl⟩⟩

theorem checkCount_le (h : checkCount max r = .ok ()) (hr : r.Redelegatable) {n : ℤ} (hn : r.requestedCount = some n) :
    n ≤ max := by
  rw [checkCount, if_pos hr, error_ite_eq_ok] at h
  exact Int.not_lt.mp fun hlt => h.1 ⟨n, hn, hlt⟩

/-- What a request that is not refused adds. -/
inductive Created (max : ℤ) (db : Db) (auth : Auth) (r : Request) (t : Trust) : Prop
  | initial (userId : ℕ) (hauth : auth = .user userId) (hparent : t.redelegatedTrustId = r.redelegatedTrustId)
      (hcount : t.redelegationCount = r.count.getD (some max))
  | redelegated (p : ℕ) (u : Trust) (d : ℤ) (hauth : auth = .trust p) (hget : db.get p = some u) (hdeleted : u.deletedAt = none)
      (hparent : t.redelegatedTrustId = some p) (hd : u.redelegationCount = some d) (hpos : 0 < d) (hmax : d ≤ max)
      (hcount : t.redelegationCount = r.count.getD (some (d - 1)))
      (hrequested : r.Redelegatable → ∀ n, r.requestedCount = some n → n = d - 1)
      (hroles : ∀ role ∈ t.roles, role ∈ u.roles) (hexpiry : ExpiryWithin t.expiresAt u.expiresAt)
      (huses : t.remainingUses = none)

/-- **Creating.** -/
theorem create_inversion (hinv : Inv env.maxRedelegationCount db) {auth : Auth} (h : create env fuel db auth i r = .ok db') :
    ∃ t, db' = db.set i t ∧ db.get i = none ∧ t.deletedAt = none ∧
      (∀ n, r.requestedCount = some n → 0 ≤ n) ∧ (r.Redelegatable → ∀ n, r.requestedCount = some n → n ≤ env.maxRedelegationCount) ∧
      Created env.maxRedelegationCount db auth r t := by
  rw [create, error_ite_eq_ok, bind_eq_ok] at h
  obtain ⟨hschema, ⟨userId, redelegated⟩, hauth, h⟩ := h
  have hnonneg : ∀ n, r.requestedCount = some n → 0 ≤ n := fun n hn =>
    Int.not_lt.mp fun hlt => hschema (.inr ⟨n, hn, hlt⟩)
  dsimp only at h
  rw [error_ite_eq_ok, error_ite_eq_ok, error_ite_eq_ok, bind_eq_ok] at h
  obtain ⟨-, -, -, roles, -, h⟩ := h
  rw [error_ite_eq_ok, error_ite_eq_ok, createTrust.eq_def, bind_eq_ok] at h
  obtain ⟨-, -, ⟨⟩, hcheck, h⟩ := h
  have hle : r.Redelegatable → ∀ n, r.requestedCount = some n → n ≤ env.maxRedelegationCount := fun hr n hn =>
    checkCount_le hcheck hr hn
  cases auth with
  | otherDelegation userId => cases hauth
  | user userId' =>
    cases hauth
    obtain ⟨⟨hfresh, -⟩, rfl⟩ := driverCreateTrust_eq_ok.mp h
    exact ⟨_, rfl, hfresh, rfl, hnonneg, hle, .initial userId rfl rfl rfl⟩
  | trust p =>
    rw [redelegation, bind_eq_ok] at hauth
    obtain ⟨u, hu, hauth⟩ := hauth
    cases hauth
    obtain ⟨hget, hdeleted, -⟩ := driverGetTrust_eq_ok.mp (driverGetTrust_of_getTrust hu)
    dsimp only at h
    cases hd : u.redelegationCount with
    | none =>
      rw [hd] at h
      cases h
    | some d =>
      rw [hd] at h
      dsimp only at h
      rw [error_ite_eq_ok, bind_eq_ok] at h
      obtain ⟨hrequested, chain, hchain, h⟩ := h
      rw [bind_eq_ok] at h
      obtain ⟨e, he, h⟩ := h
      rw [validate_pedigree hinv hchain hget] at he
      obtain ⟨⟨d', hd', hpos, hmax⟩, huses, hroles, hexpiry⟩ := validateRedelegation_eq_ok.mp he
      rw [hd] at hd'
      cases hd'
      obtain ⟨⟨hfresh, -⟩, rfl⟩ := driverCreateTrust_eq_ok.mp h
      refine ⟨_, rfl, hfresh, rfl, hnonneg, hle, .redelegated p u d rfl hget hdeleted rfl hd hpos hmax rfl
        (fun hr n hn => ?_) hroles ?_ huses⟩
      · exact not_not.mp fun hne => hrequested ⟨hr, n, hn, hne⟩
      · rcases hexpiry with ⟨-, rfl⟩ | ⟨-, rfl, hwithin⟩
        · exact ExpiryWithin.refl _
        · exact hwithin

theorem get_set_of_fresh (hfresh : db.get i = none) (hu : db.get p = some u) : (db.set i t).get p = some u := by
  rw [Dict.get_set, if_neg, hu]
  rintro rfl
  rw [hfresh] at hu
  cases hu

/-- A new row. -/
theorem Inv.insert (hinv : Inv max db) (hfresh : db.get i = none)
    (hbound : ∃ c, t.redelegationCount = some c ∧ c.toNat ≤ max.toNat)
    (hlink : ∀ p, t.redelegatedTrustId = some p → ∃ u, db.get p = some u ∧ Link max u t) : Inv max (db.set i t) where
  keys := hinv.keys.set i t
  bound {j s} hs := by
    rw [Dict.get_set] at hs
    split at hs
    · cases hs
      exact hbound
    · exact hinv.bound hs
  link {j s p} hs hp := by
    rw [Dict.get_set] at hs
    split at hs
    · cases hs
      obtain ⟨u, hu, hl⟩ := hlink p hp
      exact ⟨u, get_set_of_fresh hfresh hu, hl⟩
    · obtain ⟨u, hu, hl⟩ := hinv.link hs hp
      exact ⟨u, get_set_of_fresh hfresh hu, hl⟩

theorem Closed.insert (hclosed : Closed db) (hfresh : db.get i = none)
    (hparent : ∀ p, t.redelegatedTrustId = some p → ∃ u, db.get p = some u ∧ u.deletedAt = none) : Closed (db.set i t) := by
  intro j s p hs hdeleted hp
  rw [Dict.get_set] at hs
  split at hs
  · cases hs
    obtain ⟨u, hu, hl⟩ := hparent p hp
    exact ⟨u, get_set_of_fresh hfresh hu, hl⟩
  · obtain ⟨u, hu, hl⟩ := hclosed hs hdeleted hp
    exact ⟨u, get_set_of_fresh hfresh hu, hl⟩

/-- **A request keeps the invariant.** -/
theorem create_keeps (hinv : Inv env.maxRedelegationCount db) (hclosed : Closed db) (hcounted : r.Counted) {auth : Auth}
    (hown : ∀ userId, auth = .user userId → r.redelegatedTrustId = none) (h : create env fuel db auth i r = .ok db') :
    Inv env.maxRedelegationCount db' ∧ Closed db' := by
  obtain ⟨t, rfl, hfresh, -, hnonneg, hle, hcreated⟩ := create_inversion hinv h
  cases hcreated with
  | initial userId hauth hparent hcount =>
    have hnone : t.redelegatedTrustId = none := hparent.trans (hown userId hauth)
    have hno : ∀ p, t.redelegatedTrustId ≠ some p := fun p hp => nomatch hnone.symm.trans hp
    obtain ⟨c, hc, hcases⟩ := Request.count_getD hcounted env.maxRedelegationCount
    refine ⟨hinv.insert hfresh ⟨c, hcount.trans hc, ?_⟩ fun p hp => absurd hp (hno p),
      hclosed.insert hfresh fun p hp => absurd hp (hno p)⟩
    rcases hcases with ⟨-, rfl⟩ | ⟨hred, ⟨-, rfl⟩ | hr⟩
    · exact Nat.zero_le _
    · exact le_rfl
    · exact Int.toNat_le_toNat (hle hred c hr)
  | redelegated p u d hauth hget hdeleted hparent hd hpos hmax hcount hrequested hroles hexpiry huses =>
    obtain ⟨c, hc, hcases⟩ := Request.count_getD hcounted (d - 1)
    have hbounds : 0 ≤ c ∧ c < d := by
      rcases hcases with ⟨-, rfl⟩ | ⟨hred, ⟨-, rfl⟩ | hr⟩
      · exact ⟨le_rfl, hpos⟩
      · omega
      · rw [hrequested hred c hr]
        omega
    have hown' : ∀ q, t.redelegatedTrustId = some q → q = p := fun q hq => Option.some.inj (hq.symm.trans hparent)
    refine ⟨hinv.insert hfresh ⟨c, hcount.trans hc, Int.toNat_le_toNat (hbounds.2.le.trans hmax)⟩ fun q hq => ?_,
      hclosed.insert hfresh fun q hq => ?_⟩
    · rw [hown' q hq]
      exact ⟨u, hget, hroles, hexpiry, ⟨c, d, hcount.trans hc, hd, hbounds.1, hbounds.2, hmax⟩, huses⟩
    · rw [hown' q hq]
      exact ⟨u, hget, hdeleted⟩

/-! ## 4. Rows that change -/

/-- A row later: it may be deleted, and have fewer uses. -/
structure Later (t t' : Trust) : Prop where
  trustor : t'.trustorUserId = t.trustorUserId
  roles : t'.roles = t.roles
  expiry : t'.expiresAt = t.expiresAt
  count : t'.redelegationCount = t.redelegationCount
  parent : t'.redelegatedTrustId = t.redelegatedTrustId
  uses : t.remainingUses = none → t'.remainingUses = none
  deleted : t'.deletedAt = none → t.deletedAt = none

theorem Later.refl (t : Trust) : Later t t := ⟨rfl, rfl, rfl, rfl, rfl, id, id⟩

theorem Later.trans {t t' t'' : Trust} (h : Later t t') (h' : Later t' t'') : Later t t'' :=
  ⟨h'.trustor.trans h.trustor, h'.roles.trans h.roles, h'.expiry.trans h.expiry, h'.count.trans h.count,
    h'.parent.trans h.parent, h'.uses ∘ h.uses, h.deleted ∘ h'.deleted⟩

/-- The same rows, later. -/
structure Grows (db db' : Db) : Prop where
  forward : ∀ {i t}, db.get i = some t → ∃ t', db'.get i = some t' ∧ Later t t'
  backward : ∀ {i t'}, db'.get i = some t' → ∃ t, db.get i = some t ∧ Later t t'

theorem Grows.refl (db : Db) : Grows db db := ⟨fun h => ⟨_, h, .refl _⟩, fun h => ⟨_, h, .refl _⟩⟩

theorem Grows.trans {db'' : Db} (h : Grows db db') (h' : Grows db' db'') : Grows db db'' where
  forward hi := by
    obtain ⟨t', ht', hl⟩ := h.forward hi
    obtain ⟨t'', ht'', hl'⟩ := h'.forward ht'
    exact ⟨t'', ht'', hl.trans hl'⟩
  backward hi := by
    obtain ⟨t', ht', hl'⟩ := h'.backward hi
    obtain ⟨t, ht, hl⟩ := h.backward ht'
    exact ⟨t, ht, hl.trans hl'⟩

theorem Grows.set (hget : db.get i = some t) (hlater : Later t u) : Grows db (db.set i u) where
  forward {j s} hs := by
    rw [Dict.get_set]
    by_cases hij : i = j
    · subst hij
      rw [hget] at hs
      cases hs
      exact ⟨u, if_pos rfl, hlater⟩
    · exact ⟨s, (if_neg hij).trans hs, .refl s⟩
  backward {j s} hs := by
    rw [Dict.get_set] at hs
    by_cases hij : i = j
    · subst hij
      rw [if_pos rfl] at hs
      cases hs
      exact ⟨t, hget, hlater⟩
    · rw [if_neg hij] at hs
      exact ⟨s, hs, .refl s⟩

theorem Inv.grows (hinv : Inv max db) (hkeys : db'.KeysNodup) (h : Grows db db') : Inv max db' where
  keys := hkeys
  bound ht' := by
    obtain ⟨t, ht, hl⟩ := h.backward ht'
    obtain ⟨c, hc, hle⟩ := hinv.bound ht
    exact ⟨c, hl.count.trans hc, hle⟩
  link ht' hp := by
    obtain ⟨t, ht, hl⟩ := h.backward ht'
    obtain ⟨u, hu, hlink⟩ := hinv.link ht (hl.parent ▸ hp)
    obtain ⟨u', hu', hlu⟩ := h.forward hu
    refine ⟨u', hu', ?_, ?_, ?_, hl.uses hlink.uses⟩
    · rw [hl.roles, hlu.roles]
      exact hlink.roles
    · rw [hl.expiry, hlu.expiry]
      exact hlink.expiry
    · rw [hl.count, hlu.count]
      exact hlink.count

/-- **A use keeps the invariant.** -/
theorem consumeUse_keeps (hinv : Inv max db) (hclosed : Closed db) (h : consumeUse db i = .ok db') :
    Inv max db' ∧ Closed db' := by
  rw [consumeUse] at h
  cases hget : db.get i with
  | none =>
    rw [hget] at h
    cases h
  | some t =>
    rw [hget] at h
    dsimp only at h
    rw [error_ite_eq_ok] at h
    obtain ⟨hdeleted, h⟩ := h
    rw [Option.not_isSome_iff_eq_none] at hdeleted
    cases huses : t.remainingUses with
    | none =>
      rw [huses] at h
      cases h
      exact ⟨hinv, hclosed⟩
    | some n =>
      rw [huses] at h
      dsimp only at h
      rw [ite_error_eq_ok] at h
      cases h.2
      have hgrows : Grows db (db.set i { t with remainingUses := some (n - 1) }) :=
        .set hget ⟨rfl, rfl, rfl, rfl, rfl, fun h => (nomatch huses.symm.trans h), id⟩
      refine ⟨hinv.grows (hinv.keys.set _ _) hgrows, fun {j s p} hs hsd hp => ?_⟩
      obtain ⟨s', hs', hl⟩ := hgrows.backward hs
      obtain ⟨u, hu, hud⟩ := hclosed hs' (hl.deleted hsd) (hl.parent ▸ hp)
      rw [Dict.get_set]
      split
      next hip =>
        rw [← hip, hget] at hu
        cases hu
        exact ⟨_, rfl, hud⟩
      next => exact ⟨u, hu, hud⟩

/-! ## 5. Deleting -/

/-- The trusts that hang on `top`, through undeleted ones. -/
inductive Below (db : Db) (top : ℕ) : ℕ → Prop
  | refl : Below db top top
  | child {i j : ℕ} {t : Trust} : Below db top i → db.get j = some t → t.deletedAt = none → t.redelegatedTrustId = some i →
      Below db top j

/-- What hangs on the trust is its trustor's and has not expired. -/
def Deletable (now : ℕ) (db : Db) (top : ℕ) : Prop :=
  ∀ {i j t u}, Below db top i → db.get j = some t → t.deletedAt = none → t.redelegatedTrustId = some i → db.get i = some u →
    t.trustorUserId = u.trustorUserId ∧ ¬ t.Expired now

theorem Below.trans {top mid j : ℕ} (h : Below db top mid) (h' : Below db mid j) : Below db top j := by
  induction h' with
  | refl => exact h
  | child _ hget hdeleted hparent ih => exact ih.child hget hdeleted hparent

theorem Below.grows {top j : ℕ} (h : Below db' top j) (hgrows : Grows db db') : Below db top j := by
  induction h with
  | refl => exact .refl
  | child _ hget hdeleted hparent ih =>
    obtain ⟨t, ht, hl⟩ := hgrows.backward hget
    exact ih.child ht (hl.deleted hdeleted) (hl.parent ▸ hparent)

theorem Later.expired {now : ℕ} {t t' : Trust} (h : Later t t') : t'.Expired now ↔ t.Expired now := by
  rw [Trust.Expired, Trust.Expired, h.expiry]

theorem Deletable.grows {top : ℕ} (h : Deletable now db top) (hgrows : Grows db db') : Deletable now db' top := by
  intro i j t' u' hbelow ht' hdeleted hparent hu'
  obtain ⟨t, ht, hl⟩ := hgrows.backward ht'
  obtain ⟨u, hu, hlu⟩ := hgrows.backward hu'
  obtain ⟨htrustor, hexpired⟩ := h (hbelow.grows hgrows) ht (hl.deleted hdeleted) (hl.parent ▸ hparent) hu
  exact ⟨hl.trustor.trans (htrustor.trans hlu.trustor.symm), fun he => hexpired (hl.expired.mp he)⟩

theorem Deletable.below {top mid : ℕ} (h : Deletable now db top) (hmid : Below db top mid) : Deletable now db mid :=
  fun hbelow => h (hmid.trans hbelow)

/-- A trust that is there is read or deleted. -/
theorem driverGetTrust_cases (hget : db.get i = some t) (hexpired : ¬ t.Expired now) (huses : ¬ t.UsedUp) :
    driverGetTrust now db i = .ok t ∨ driverGetTrust now db i = .error .trustNotFound ∧ t.deletedAt ≠ none := by
  cases hdeleted : t.deletedAt with
  | none => exact .inl (driverGetTrust_eq_ok.mpr ⟨hget, hdeleted, hexpired, huses⟩)
  | some d =>
    refine .inr ⟨?_, Option.some_ne_none d⟩
    rw [driverGetTrust, hget]
    exact if_pos (.inl (hdeleted ▸ rfl))

/-- The row is deleted. -/
def IsDeleted (db : Db) (i : ℕ) : Prop := ∃ t, db.get i = some t ∧ t.deletedAt ≠ none

theorem IsDeleted.grows (h : IsDeleted db i) (hgrows : Grows db db') : IsDeleted db' i := by
  obtain ⟨t, ht, hdeleted⟩ := h
  obtain ⟨t', ht', hl⟩ := hgrows.forward ht
  exact ⟨t', ht', fun hnone => hdeleted (hl.deleted hnone)⟩

theorem mem_listTrustsForTrustor (hkeys : db.KeysNodup) {trustor : ℕ} {e : ℕ × Trust} :
    e ∈ listTrustsForTrustor db trustor ↔ db.get e.1 = some e.2 ∧ e.2.deletedAt = none ∧ e.2.trustorUserId = trustor := by
  rw [listTrustsForTrustor, List.mem_filter, decide_eq_true_iff, ← hkeys.mem_iff]

/-- **Deleting takes all that hangs on the trust.** -/
theorem deleteTrust_spec (hinv : Inv max db) (hclosed : Closed db) (hdeletable : Deletable now db i)
    (hfuel : ∀ c, u.redelegationCount = some c → c.toNat < fuel) (hu : driverGetTrust now db i = .ok u) :
    ∃ db', deleteTrust now fuel db i = .ok db' ∧ Grows db db' ∧ db'.KeysNodup ∧ Closed db' ∧ IsDeleted db' i := by
  induction fuel generalizing db i u with
  | zero =>
    obtain ⟨c, hc, -⟩ := hinv.bound (driverGetTrust_eq_ok.mp hu).1
    exact absurd (hfuel c hc) (Nat.not_lt_zero _)
  | succ fuel ih =>
    obtain ⟨hget, -⟩ := driverGetTrust_eq_ok.mp hu
    -- one trust that hangs on it, after some of the others
    have hstep : ∀ s, (Grows db s ∧ s.KeysNodup ∧ Closed s) →
        ∀ e ∈ (listTrustsForTrustor db u.trustorUserId).filter fun e => e.2.redelegatedTrustId = some i,
        ∃ s', passTrustNotFound s (deleteTrust now fuel s e.1) = .ok s' ∧ (Grows db s' ∧ s'.KeysNodup ∧ Closed s') ∧
          IsDeleted s' e.1 ∧ ∀ b : ℕ × Trust, IsDeleted s b.1 → IsDeleted s' b.1 := by
      rintro s ⟨hgrows, hkeys, hclosed'⟩ e he
      obtain ⟨hlisted, hparent⟩ := List.mem_filter.mp he
      obtain ⟨hchild, hundeleted, -⟩ := (mem_listTrustsForTrustor hinv.keys).mp hlisted
      have hparent := of_decide_eq_true hparent
      have hbelow : Below db i e.1 := Below.refl.child hchild hundeleted hparent
      obtain ⟨u', hu', hlink⟩ := hinv.link hchild hparent
      rw [hget] at hu'
      cases hu'
      obtain ⟨t, ht, hl⟩ := hgrows.forward hchild
      have hexpired : ¬ t.Expired now := fun hx =>
        (hdeletable .refl hchild hundeleted hparent hget).2 (hl.expired.mp hx)
      have huses : ¬ t.UsedUp := by
        rintro ⟨n, hn, -⟩
        rw [hl.uses hlink.uses] at hn
        cases hn
      rcases driverGetTrust_cases ht hexpired huses with hok | ⟨herr, hdeleted⟩
      · obtain ⟨c, d, hc, hd, hc0, hlt, -⟩ := hlink.count
        have hsmall : ∀ c', t.redelegationCount = some c' → c'.toNat < fuel := fun c' hc' => by
          rw [hl.count, hc] at hc'
          cases hc'
          have := hfuel d hd
          omega
        obtain ⟨s', hs', hgrows', hkeys', hclosed'', hdel⟩ := ih (hinv.grows hkeys hgrows) hclosed'
          (Deletable.grows (hdeletable.below hbelow) hgrows) hsmall hok
        refine ⟨s', ?_, ⟨hgrows.trans hgrows', hkeys', hclosed''⟩, hdel, fun b hb => hb.grows hgrows'⟩
        rw [hs']
        rfl
      · refine ⟨s, ?_, ⟨hgrows, hkeys, hclosed'⟩, ⟨t, ht, hdeleted⟩, fun _ => id⟩
        cases fuel with
        | zero =>
          obtain ⟨c, d, hc, hd, hc0, hlt, -⟩ := hlink.count
          have := hfuel d hd
          omega
        | succ fuel =>
          rw [deleteTrust, herr]
          rfl
    obtain ⟨s, hs, ⟨hgrows, hkeys, hclosed'⟩, hall, -⟩ := foldlM_keeps hstep ⟨.refl db, hinv.keys, hclosed⟩
    obtain ⟨t, ht, hl⟩ := hgrows.forward hget
    have hgrows' : Grows s (s.set i { t with deletedAt := some now }) := .set ht ⟨rfl, rfl, rfl, rfl, rfl, id, nofun⟩
    refine ⟨s.set i { t with deletedAt := some now }, ?_, hgrows.trans hgrows', hkeys.set _ _, ?_, _,
      by rw [Dict.get_set, if_pos rfl], Option.some_ne_none now⟩
    · rw [deleteTrust, hu]
      show (List.foldlM _ db _ >>= fun db => driverDeleteTrust now db i) = _
      rw [hs]
      show driverDeleteTrust now s i = _
      rw [driverDeleteTrust, ht]
    · intro j x p hx hundeleted hparent
      obtain ⟨x', hx', hlx⟩ := hgrows'.backward hx
      obtain ⟨v, hv, hvundeleted⟩ := hclosed' hx' (hlx.deleted hundeleted) (hlx.parent ▸ hparent)
      rw [Dict.get_set]
      split
      next hip =>
        -- what hung on the deleted trust was listed, and is deleted
        subst hip
        obtain ⟨x0, hx0, hl0⟩ := hgrows.backward hx'
        have hundeleted0 := hl0.deleted (hlx.deleted hundeleted)
        have hparent0 : x0.redelegatedTrustId = some i := hl0.parent ▸ hlx.parent ▸ hparent
        have htrustor := (hdeletable .refl hx0 hundeleted0 hparent0 hget).1
        obtain ⟨y, hy, hydeleted⟩ := hall (j, x0) (List.mem_filter.mpr
          ⟨(mem_listTrustsForTrustor hinv.keys).mpr ⟨hx0, hundeleted0, htrustor⟩, decide_eq_true hparent0⟩)
        rw [hx'] at hy
        cases hy
        exact absurd (hlx.deleted hundeleted) hydeleted
      next => exact ⟨v, hv, hvundeleted⟩

end Mitaka.Keystone.Trusts
