/-
  Subject: Runs of trust requests.

  * **`trust_chains`** -- on every run, a redelegated trust is within the trust it hangs on,
    no trust survives one it hangs on, and a redelegation within the bounds of its parent
    is not refused.
  * `trust_chains_fail` -- a null count, a smaller count, an expiry under a trust without one
    and a trust of the trustee's: each breaks a part of it.
-/
import Mitaka.Keystone.TrustChains

namespace Mitaka.Keystone.Trusts

open Fallible

variable {max : ℤ} {db db' : Db} {env : Env} {now i p fuel : ℕ} {t u : Trust} {r : Request}

/-! ## 1. Runs -/

inductive Op
  | create (env : Env) (auth : Auth) (trustId : ℕ) (r : Request)
  | consumeUse (trustId : ℕ)
  | delete (env : Env) (userId : ℕ) (isAdmin : Bool) (trustId : ℕ)

def result (fuel : ℕ) (db : Db) : Op → Except Error Db
  | .create env auth trustId r => create env fuel db auth trustId r
  | .consumeUse trustId => consumeUse db trustId
  | .delete env userId isAdmin trustId => delete env fuel db userId isAdmin trustId

/-- A refused request changes nothing. -/
def step (fuel : ℕ) (db : Db) (op : Op) : Option Db := some ((result fuel db op).toOption.getD db)

/-- The requests of the runs: no count is null, only a redelegation names a trust, and what hangs on a deleted trust is of
its trustor and has not expired. -/
def Allowed (max : ℤ) (db : Db) : Op → Prop
  | .create env auth _ r =>
    env.maxRedelegationCount = max ∧ r.Counted ∧ ∀ userId, auth = .user userId → r.redelegatedTrustId = none
  | .consumeUse _ => True
  | .delete env _ _ trustId => env.maxRedelegationCount = max ∧ Deletable env.now db trustId

theorem delete_keeps (hinv : Inv max db) (hclosed : Closed db) (hfuel : max.toNat < fuel) (hdeletable : Deletable env.now db i)
    {userId : ℕ} {isAdmin : Bool} (h : delete env fuel db userId isAdmin i = .ok db') : Inv max db' ∧ Closed db' := by
  rw [delete, bind_eq_ok] at h
  obtain ⟨u, hu, h⟩ := h
  rw [error_ite_eq_ok] at h
  have hget := driverGetTrust_of_getTrust hu
  obtain ⟨c, hc, hle⟩ := hinv.bound (driverGetTrust_eq_ok.mp hget).1
  have hsmall : ∀ c', u.redelegationCount = some c' → c'.toNat < fuel := fun c' hc' => by
    rw [hc] at hc'
    cases hc'
    exact Nat.lt_of_le_of_lt hle hfuel
  obtain ⟨s, hs, hgrows, hkeys, hclosed', -⟩ := deleteTrust_spec hinv hclosed hdeletable hsmall hget
  rw [hs] at h
  cases h.2
  exact ⟨hinv.grows hkeys hgrows, hclosed'⟩

/-- **Every request keeps the invariant.** -/
theorem reach_keeps (hfuel : max.toNat < fuel) (h : Reach (step fuel) (Allowed max) [] db) : Inv max db ∧ Closed db := by
  refine h.invariant (I := fun db => Inv max db ∧ Closed db) ⟨⟨List.nodup_nil, nofun, nofun⟩, nofun⟩ ?_
  rintro db op db' ⟨hinv, hclosed⟩ hallowed hstep
  cases hstep
  cases hresult : result fuel db op with
  | error e => exact ⟨hinv, hclosed⟩
  | ok db' =>
    cases op with
    | create env auth trustId r =>
      obtain ⟨rfl, hcounted, hown⟩ := hallowed
      exact create_keeps hinv hclosed hcounted hown hresult
    | consumeUse trustId => exact consumeUse_keeps hinv hclosed hresult
    | delete env userId isAdmin trustId => exact delete_keeps hinv hclosed hfuel hallowed.2 hresult

/-- The trusts a trust hangs on. -/
inductive Ancestor (db : Db) (i : ℕ) : ℕ → Prop
  | parent {t : Trust} {p : ℕ} : db.get i = some t → t.redelegatedTrustId = some p → Ancestor db i p
  | further {u : Trust} {p q : ℕ} : Ancestor db i p → db.get p = some u → u.redelegatedTrustId = some q → Ancestor db i q

theorem Closed.ancestor (hclosed : Closed db) (hget : db.get i = some t) (hundeleted : t.deletedAt = none) {a : ℕ}
    (h : Ancestor db i a) : ∃ u, db.get a = some u ∧ u.deletedAt = none := by
  induction h with
  | parent ht hp =>
    rw [hget] at ht
    cases ht
    exact hclosed hget hundeleted hp
  | further _ hu hq ih =>
    obtain ⟨u', hu', hundeleted'⟩ := ih
    rw [hu] at hu'
    cases hu'
    exact hclosed hu hundeleted' hq

/-! ## 2. Requests within the bounds -/

/-- The request is within the bounds of the trust it redelegates. -/
structure WithinBounds (u : Trust) (r : Request) : Prop where
  roles : ∀ role ∈ r.roles, role ∈ u.roles
  expiry : r.expiresAt = none ∨ r.expiresAt.isSome ∧ ExpiryWithin r.expiresAt u.expiresAt
  count : ∃ d, u.redelegationCount = some d ∧ 0 < d ∧
    (r.Redelegatable → r.redelegationCount = none ∨ r.redelegationCount = some (some (d - 1)))
  uses : r.remainingUses = none

/-- What a request for trust `i` on trust `p` needs besides. -/
structure WellFormed (env : Env) (db : Db) (i p : ℕ) (u : Trust) (r : Request) : Prop where
  trustor : u.tokenUser = r.trustorUserId
  trustee : env.getUser r.trusteeUserId
  schema : ∀ n, r.requestedCount = some n → 0 ≤ n
  own : r.redelegatedTrustId = none
  future : ∀ e, r.expiresAt = some e → env.now ≤ e
  held : match r.projectId with
    | none => r.roles = []
    | some project => r.roles ≠ [] ∧ env.getProject project ∧
        ∀ role ∈ r.roles, role ∈ env.effectiveRoles r.trustorUserId project
  fresh : db.get i = none
  nodup : r.roles.Nodup
  distinct : ∀ e ∈ db, ¬ (r.toTrust (some p) none (r.expiresAt.or u.expiresAt)).Duplicates e.2

theorem WellFormed.roles_held (h : WellFormed env db i p u r) :
    ¬ (r.projectId.isSome ∧ r.roles = []) ∧
      ∃ roles, getTrustorRoles env fuel db r = .ok roles ∧ ∀ role ∈ r.roles, role ∈ roles := by
  have hheld := h.held
  have horiginal : originalTrust env db fuel (r.trustorUserId, r.projectId) r.redelegatedTrustId =
      .ok (r.trustorUserId, r.projectId) := by rw [h.own, originalTrust]
  cases hproject : r.projectId with
  | none =>
    rw [hproject] at hheld
    dsimp only at hheld
    refine ⟨fun hc => (nomatch hc.1), [], ?_, fun role hrole => hheld ▸ hrole⟩
    rw [getTrustorRoles, horiginal, hproject]
    rfl
  | some project =>
    rw [hproject] at hheld
    obtain ⟨hne, hexists, hroles⟩ := hheld
    refine ⟨fun hc => hne hc.2, env.effectiveRoles r.trustorUserId project, ?_, hroles⟩
    rw [getTrustorRoles, horiginal, hproject]
    exact if_pos hexists

/-- **A request within the bounds is not refused.** -/
theorem create_accepts (hinv : Inv env.maxRedelegationCount db) (hfuel : 0 < fuel) (hu : getTrust env fuel db p = .ok u)
    (hwithin : WithinBounds u r) (hwell : WellFormed env db i p u r) :
    ∃ db', create env fuel db (.trust p) i r = .ok db' := by
  obtain ⟨hget, -⟩ := driverGetTrust_eq_ok.mp (driverGetTrust_of_getTrust hu)
  obtain ⟨d, hd, hpos, hcount⟩ := hwithin.count
  have hmax : d ≤ env.maxRedelegationCount := by
    obtain ⟨c, hc, hle⟩ := hinv.bound hget
    rw [hd] at hc
    cases hc
    omega
  obtain ⟨chain, hchain⟩ := pedigree_of_getTrust hfuel hu
  obtain ⟨hproject, roles, hroles, hheld⟩ := @WellFormed.roles_held db env i p fuel u r hwell
  have hrequested : r.Redelegatable → ∀ n, r.requestedCount = some n → n = d - 1 := fun hr n hn => by
    rcases hcount hr with h | h
    · rw [Request.requestedCount, h] at hn
      cases hn
    · rw [Request.requestedCount, h] at hn
      exact (Option.some.inj hn).symm
  have hvalid : validateRedelegation env.maxRedelegationCount u r.remainingUses r.expiresAt r.roles =
      .ok (r.expiresAt.or u.expiresAt) := by
    refine validateRedelegation_eq_ok.mpr ⟨⟨d, hd, hpos, hmax⟩, hwithin.uses, hwithin.roles, ?_⟩
    rcases hwithin.expiry with h | ⟨hsome, h⟩
    · exact .inl ⟨h, by rw [h, Option.none_or]⟩
    · exact .inr ⟨hsome, Option.or_of_isSome hsome, h⟩
  have hcheck : checkCount env.maxRedelegationCount r = .ok () := by
    rw [checkCount]
    by_cases hr : r.Redelegatable
    · rw [if_pos hr, if_neg, if_neg (by rw [hwithin.uses]; exact Bool.false_ne_true)]
      rintro ⟨n, hn, hlt⟩
      have := hrequested hr n hn
      omega
    · rw [if_neg hr, if_neg]
      rintro ⟨n, hn, -⟩
      rw [hwithin.uses] at hn
      cases hn
  have hstore : driverCreateTrust db i (r.toTrust (some p) (r.count.getD (some (d - 1))) (r.expiresAt.or u.expiresAt)) =
      .ok (db.set i (r.toTrust (some p) (r.count.getD (some (d - 1))) (r.expiresAt.or u.expiresAt))) :=
    driverCreateTrust_eq_ok.mpr ⟨⟨hwell.fresh, hwell.distinct, hwell.nodup⟩, rfl⟩
  have hmanager : createTrust env fuel db i r (some (p, u)) =
      .ok (db.set i (r.toTrust (some p) (r.count.getD (some (d - 1))) (r.expiresAt.or u.expiresAt))) := by
    rw [createTrust.eq_def, bind_eq_ok]
    refine ⟨(), hcheck, ?_⟩
    dsimp only
    rw [hd]
    dsimp only
    rw [error_ite_eq_ok, bind_eq_ok]
    refine ⟨?_, chain, hchain, bind_eq_ok.mpr ⟨_, (validate_pedigree hinv hchain hget).mpr hvalid, hstore⟩⟩
    rintro ⟨hr, n, hn, hne⟩
    exact hne (hrequested hr n hn)
  refine ⟨db.set i (r.toTrust (some p) (r.count.getD (some (d - 1))) (r.expiresAt.or u.expiresAt)), ?_⟩
  rw [create, error_ite_eq_ok, bind_eq_ok]
  refine ⟨?_, (u.tokenUser, some (p, u)), ?_, ?_⟩
  · rintro (⟨n, hn, -⟩ | ⟨n, hn, hlt⟩)
    · rw [hwithin.uses] at hn
      cases hn
    · exact absurd (hwell.schema n hn) (Int.not_le.mpr hlt)
  · rw [redelegation, hu]
    rfl
  · dsimp only
    rw [error_ite_eq_ok, error_ite_eq_ok, error_ite_eq_ok, bind_eq_ok]
    refine ⟨hproject, not_not.mpr hwell.trustor, not_not.mpr hwell.trustee, roles, hroles, ?_⟩
    rw [error_ite_eq_ok, error_ite_eq_ok]
    refine ⟨not_not.mpr hheld, ?_, hmanager⟩
    rintro ⟨e, he, hlt⟩
    exact absurd (hwell.future e he) (Nat.not_le.mpr hlt)

/-! ## 3. The chains of every run -/

/-- What holds of the chains of a database. -/
structure NeverWiden (max : ℤ) (fuel : ℕ) (db : Db) : Prop where
  within : ∀ i t p, db.get i = some t → t.redelegatedTrustId = some p → ∃ u, db.get p = some u ∧
    (∀ role ∈ t.roles, role ∈ u.roles) ∧ (u.expiresAt = none ∨ ∃ e x, t.expiresAt = some e ∧ u.expiresAt = some x ∧ e ≤ x) ∧
    ∃ c d, t.redelegationCount = some c ∧ u.redelegationCount = some d ∧ c < d ∧ c ≤ max
  alive : ∀ i t a, db.get i = some t → t.deletedAt = none → Ancestor db i a → ∃ u, db.get a = some u ∧ u.deletedAt = none
  accepts : ∀ env i p u r, env.maxRedelegationCount = max → getTrust env fuel db p = .ok u → WithinBounds u r →
    WellFormed env db i p u r → ∃ db', create env fuel db (.trust p) i r = .ok db'

/-- **Chains of trusts never widen.** -/
theorem trust_chains (hfuel : max.toNat < fuel) (h : Reach (step fuel) (Allowed max) [] db) : NeverWiden max fuel db := by
  obtain ⟨hinv, hclosed⟩ := reach_keeps hfuel h
  constructor
  · intro i t p ht hp
    obtain ⟨u, hu, hlink⟩ := hinv.link ht hp
    obtain ⟨c, d, hc, hd, -, hlt, hle⟩ := hlink.count
    refine ⟨u, hu, hlink.roles, ?_, c, d, hc, hd, hlt, hlt.le.trans hle⟩
    have hexpiry := hlink.expiry
    cases hx : u.expiresAt with
    | none => exact .inl rfl
    | some x =>
      cases he : t.expiresAt with
      | none =>
        rw [he, hx] at hexpiry
        exact hexpiry.elim
      | some e =>
        rw [he, hx] at hexpiry
        exact .inr ⟨e, x, rfl, rfl, hexpiry⟩
  · exact fun i t a ht hundeleted ha => hclosed.ancestor ht hundeleted ha
  · rintro env i p u r rfl hu hwithin hwell
    exact create_accepts hinv (Nat.lt_of_le_of_lt (Nat.zero_le _) hfuel) hu hwithin hwell

/-- Everyone exists and has role 1, and chains have at most three redelegations. -/
def services : Env := ⟨0, 3, fun _ => true, fun _ => true, fun _ => true, fun _ _ => [1]⟩

/-- User 1 trusts user 2. -/
def initialRequest : Request where
  trustorUserId := 1
  trusteeUserId := 2
  projectId := some 1
  impersonation := true
  expiresAt := none
  remainingUses := none
  roles := [1]
  allowRedelegation := true
  redelegationCount := none
  redelegatedTrustId := none

def run (fuel : ℕ) (ops : List Op) : Db := ops.foldl (fun db op => (result fuel db op).toOption.getD db) []

/-- **After a trust and one on it.** -/
theorem trust_chains_two : NeverWiden 3 4
    (run 4 [.create services (.user 1) 1 initialRequest, .create services (.trust 1) 2 initialRequest]) := by
  have hinitial : Allowed 3 [] (.create services (.user 1) 1 initialRequest) := ⟨rfl, fun _ => nofun, fun _ _ => rfl⟩
  have hsecond : ∀ db, Allowed 3 db (.create services (.trust 1) 2 initialRequest) := fun _ => ⟨rfl, fun _ => nofun, nofun⟩
  exact trust_chains (by decide) ((Reach.refl.tail hinitial rfl).tail (hsecond _) rfl)

/-- A null count is stored as it is, a smaller count is refused, an expiry under a trust without one fails, and a trust of
the trustee's survives the one it hangs on. -/
theorem trust_chains_fail :
    ((run 4 [.create services (.user 1) 1 initialRequest,
      .create services (.trust 1) 2 { initialRequest with redelegationCount := some none }]).get 2).map
      Trust.redelegationCount = some none ∧
    create services 4 (run 4 [.create services (.user 1) 1 initialRequest]) (.trust 1) 2
      { initialRequest with redelegationCount := some (some 1) } = .error .forbidden ∧
    create services 4 (run 4 [.create services (.user 1) 1 initialRequest]) (.trust 1) 2
      { initialRequest with expiresAt := some 5 } = .error .typeError ∧
    (run 4 [.create services (.user 1) 1 { initialRequest with impersonation := false },
      .create services (.trust 1) 2 { initialRequest with trustorUserId := 2, trusteeUserId := 3 },
      .delete services 1 false 1]).map (fun e => (e.1, e.2.redelegatedTrustId, e.2.deletedAt)) =
        [(1, none, some 0), (2, some 1, none)] := by
  decide

end Mitaka.Keystone.Trusts
