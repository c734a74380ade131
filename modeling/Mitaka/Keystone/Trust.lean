/-
  Subject: Trusts (keystone/trust/core.py, controllers.py, backends/sql.py).

  A trust hands roles of its trustor to its trustee; a token of the trust can make a further,
  redelegated trust. `_validate_redelegation` compares the new trust with every trust of the
  chain it hangs on; `delete_trust` deletes the redelegated trusts first. Role names are
  resolved to ids, and dates are naive UTC.
-/
import Mathlib
import Mitaka.Lib.Dict

namespace Mitaka.Keystone.Trusts

/-! ## 1. Tables -/

/-- A row of `trust` with its roles; the redelegation fields are in `extra`. -/
structure Trust where
  trustorUserId : ℕ
  trusteeUserId : ℕ
  projectId : Option ℕ
  impersonation : Bool
  expiresAt : Option ℕ
  remainingUses : Option ℤ
  deletedAt : Option ℕ
  redelegatedTrustId : Option ℕ
  redelegationCount : Option ℤ
  roles : List ℕ
  deriving DecidableEq, Repr

/-- The trusts by id. -/
abbrev Db := Dict ℕ Trust

inductive Error
  | typeError
  | forbidden
  | validationError
  | trustNotFound
  | userNotFound
  | projectNotFound
  | roleNotFound
  | trustUseLimitReached
  | conflict
  | endless
  deriving DecidableEq, Repr

/-- `now > expires_at` -/
def Trust.Expired (now : ℕ) (t : Trust) : Prop := ∃ e ∈ t.expiresAt, e < now

instance (now : ℕ) (t : Trust) : Decidable (t.Expired now) := inferInstanceAs (Decidable (∃ e ∈ t.expiresAt, e < now))

/-- No consumption is left. -/
def Trust.UsedUp (t : Trust) : Prop := ∃ n ∈ t.remainingUses, n ≤ 0

instance (t : Trust) : Decidable t.UsedUp := inferInstanceAs (Decidable (∃ n ∈ t.remainingUses, n ≤ 0))

/-- `get_trust` of the driver. -/
def driverGetTrust (now : ℕ) (db : Db) (trustId : ℕ) : Except Error Trust :=
  match db.get trustId with
  | none => .error .trustNotFound
  | some t => if t.deletedAt.isSome ∨ t.Expired now ∨ t.UsedUp then .error .trustNotFound else .ok t

def listTrustsForTrustor (db : Db) (trustorUserId : ℕ) : List (ℕ × Trust) :=
  db.filter fun e => e.2.deletedAt = none ∧ e.2.trustorUserId = trustorUserId

/-- `duplicate_trust_constraint`; a null is equal to nothing. -/
def Trust.Duplicates (t u : Trust) : Prop :=
  t.trustorUserId = u.trustorUserId ∧ t.trusteeUserId = u.trusteeUserId ∧ t.projectId.isSome ∧ t.projectId = u.projectId ∧
    t.impersonation = u.impersonation ∧ t.expiresAt.isSome ∧ t.expiresAt = u.expiresAt

instance (t u : Trust) : Decidable (t.Duplicates u) := by
  unfold Trust.Duplicates
  infer_instance

/-- `create_trust` of the driver, with the primary keys of both tables. -/
def driverCreateTrust (db : Db) (trustId : ℕ) (t : Trust) : Except Error Db :=
  if (db.get trustId).isSome ∨ (∃ e ∈ db, t.Duplicates e.2) ∨ ¬ t.roles.Nodup then .error .conflict
  else .ok (db.set trustId t)

/-- `delete_trust` of the driver. -/
def driverDeleteTrust (now : ℕ) (db : Db) (trustId : ℕ) : Except Error Db :=
  match db.get trustId with
  | none => .error .trustNotFound
  | some t => .ok (db.set trustId { t with deletedAt := some now })

/-- `consume_use`, without a concurrent one. -/
def consumeUse (db : Db) (trustId : ℕ) : Except Error Db :=
  match db.get trustId with
  | none => .error .trustNotFound
  | some t =>
    if t.deletedAt.isSome then .error .trustNotFound
    else match t.remainingUses with
      | none => .ok db
      | some n => if 0 < n then .ok (db.set trustId { t with remainingUses := some (n - 1) }) else .error .trustUseLimitReached

/-! ## 2. The manager -/

/-- What the other services say, and the configuration. -/
structure Env where
  now : ℕ
  maxRedelegationCount : ℤ
  getUser : ℕ → Bool
  assertUserEnabled : ℕ → Bool
  getProject : ℕ → Bool
  effectiveRoles : ℕ → ℕ → List ℕ

/-- The expiry times in `_validate_redelegation`. -/
def checkExpiry : Option ℕ → Option ℕ → Except Error (Option ℕ)
  | some trustExpiry, some redelegatedExpiry =>
    if redelegatedExpiry < trustExpiry then .error .forbidden else .ok (some trustExpiry)
  -- `None < trust_expiry`
  | some _, none => .error .typeError
  | none, redelegatedExpiry => .ok redelegatedExpiry

/-- `_validate_redelegation`, of the fields it reads; the expiry that the trust has afterwards. -/
def validateRedelegation (maxRedelegationCount : ℤ) (redelegatedTrust : Trust) (remainingUses : Option ℤ) (expiresAt : Option ℕ)
    (roles : List ℕ) : Except Error (Option ℕ) :=
  match redelegatedTrust.redelegationCount with
  | none => .error .typeError
  | some depth =>
    if ¬ (0 < depth ∧ depth ≤ maxRedelegationCount) then .error .forbidden
    else if remainingUses.isSome then .error .forbidden
    else do
      let expiresAt ← checkExpiry expiresAt redelegatedTrust.expiresAt
      if ∀ role ∈ roles, role ∈ redelegatedTrust.roles then .ok expiresAt else .error .forbidden

/-- The trust and what it hangs on, at most `fuel` trusts. -/
def getTrustPedigree (now : ℕ) (db : Db) : ℕ → ℕ → Except Error (List Trust)
  | 0, _ => .error .endless
  | fuel + 1, trustId => do
    let trust ← driverGetTrust now db trustId
    match trust.redelegatedTrustId with
    | none => .ok [trust]
    | some parentId => do
      let chain ← getTrustPedigree now db fuel parentId
      .ok (trust :: chain)

/-- One pair of the chain. -/
def checkLink (env : Env) (parent child : Trust) : Except Error Unit := do
  let _ ← validateRedelegation env.maxRedelegationCount parent child.remainingUses child.expiresAt child.roles
  if env.assertUserEnabled parent.trusteeUserId then .ok () else .error .forbidden

/-- `get_trust` of the manager. -/
def getTrust (env : Env) (fuel : ℕ) (db : Db) (trustId : ℕ) : Except Error Trust := do
  let trust ← driverGetTrust env.now db trustId
  match trust.redelegatedTrustId with
  | none => .ok trust
  | some _ => do
    let chain ← getTrustPedigree env.now db fuel trustId
    (chain.tail.zip chain).forM fun e => checkLink env e.1 e.2
    .ok trust

/-- The body of a request. A count that is given may be null, and properties that the schema does not name are kept. -/
structure Request where
  trustorUserId : ℕ
  trusteeUserId : ℕ
  projectId : Option ℕ
  impersonation : Bool
  expiresAt : Option ℕ
  remainingUses : Option ℤ
  roles : List ℕ
  allowRedelegation : Bool
  redelegationCount : Option (Option ℤ)
  redelegatedTrustId : Option ℕ
  deriving DecidableEq, Repr

/-- The count of the request as far as it is checked: `None` when it is absent or null. -/
def Request.requestedCount (r : Request) : Option ℤ := r.redelegationCount.join

def Request.Redelegatable (r : Request) : Prop := r.allowRedelegation ∧ r.requestedCount ≠ some 0

instance (r : Request) : Decidable r.Redelegatable := inferInstanceAs (Decidable (_ ∧ _))

/-- The count of the trust before the defaults: absent, null or a number. -/
def Request.count (r : Request) : Option (Option ℤ) := if r.Redelegatable then r.redelegationCount else some (some 0)

/-- The checks of `create_trust` that do not look at the redelegated trust. -/
def checkCount (maxRedelegationCount : ℤ) (r : Request) : Except Error Unit :=
  if r.Redelegatable then
    if ∃ n ∈ r.requestedCount, maxRedelegationCount < n then .error .forbidden
    else if r.remainingUses.isSome then .error .validationError
    else .ok ()
  else if ∃ n ∈ r.remainingUses, n ≤ 0 then .error .validationError
  else .ok ()

def Request.toTrust (r : Request) (redelegatedTrustId : Option ℕ) (count : Option ℤ) (expiresAt : Option ℕ) : Trust where
  trustorUserId := r.trustorUserId
  trusteeUserId := r.trusteeUserId
  projectId := r.projectId
  impersonation := r.impersonation
  expiresAt := expiresAt
  remainingUses := r.remainingUses
  deletedAt := none
  redelegatedTrustId := redelegatedTrustId
  redelegationCount := count
  roles := r.roles

/-- `create_trust` of the manager. -/
def createTrust (env : Env) (fuel : ℕ) (db : Db) (trustId : ℕ) (r : Request) (redelegatedTrust : Option (ℕ × Trust)) :
    Except Error Db := do
  checkCount env.maxRedelegationCount r
  match redelegatedTrust with
  | none =>
    driverCreateTrust db trustId
      (r.toTrust r.redelegatedTrustId (r.count.getD (some env.maxRedelegationCount)) r.expiresAt)
  | some (redelegatedId, parent) =>
    match parent.redelegationCount with
    | none => .error .typeError
    | some depth =>
      let remainingCount := depth - 1
      if r.Redelegatable ∧ ∃ n ∈ r.requestedCount, n ≠ remainingCount then .error .forbidden
      else do
        let pedigree ← getTrustPedigree env.now db fuel redelegatedId
        let expiresAt ← pedigree.foldlM
          (fun expiresAt t => validateRedelegation env.maxRedelegationCount t r.remainingUses expiresAt r.roles) r.expiresAt
        driverCreateTrust db trustId
          (r.toTrust (some redelegatedId) (r.count.getD (some remainingCount)) expiresAt)

/-- `except TrustNotFound: pass` -/
def passTrustNotFound (db : Db) : Except Error Db → Except Error Db
  | .error .trustNotFound => .ok db
  | result => result

/-- `delete_trust` of the manager, to a depth of `fuel`. -/
def deleteTrust (now : ℕ) : ℕ → Db → ℕ → Except Error Db
  | 0, _, _ => .error .endless
  | fuel + 1, db, trustId => do
    let trust ← driverGetTrust now db trustId
    let trusts := listTrustsForTrustor db trust.trustorUserId
    let db ← (trusts.filter fun e => e.2.redelegatedTrustId = some trustId).foldlM
      (fun db e => passTrustNotFound db (deleteTrust now fuel db e.1)) db
    driverDeleteTrust now db trustId

/-! ## 3. The controller -/

/-- What the token of a request was made from. -/
inductive Auth
  | user (userId : ℕ)
  | trust (trustId : ℕ)
  | otherDelegation (userId : ℕ)
  deriving DecidableEq, Repr

/-- The user of a token of the trust. -/
def Trust.tokenUser (t : Trust) : ℕ := if t.impersonation then t.trustorUserId else t.trusteeUserId

/-- The user of the token and the trust it redelegates. -/
def redelegation (env : Env) (fuel : ℕ) (db : Db) : Auth → Except Error (ℕ × Option (ℕ × Trust))
  | .user userId => .ok (userId, none)
  | .otherDelegation _ => .error .forbidden
  | .trust trustId => do
    let trust ← getTrust env fuel db trustId
    .ok (trust.tokenUser, some (trustId, trust))

/-- The trustor and the project of the first trust of the chain of a request's own `redelegated_trust_id`. -/
def originalTrust (env : Env) (db : Db) : ℕ → ℕ × Option ℕ → Option ℕ → Except Error (ℕ × Option ℕ)
  | _, original, none => .ok original
  | 0, _, some _ => .error .endless
  | fuel + 1, _, some trustId => do
    let trust ← getTrust env (fuel + 1) db trustId
    originalTrust env db fuel (trust.trustorUserId, trust.projectId) trust.redelegatedTrustId

def getTrustorRoles (env : Env) (fuel : ℕ) (db : Db) (r : Request) : Except Error (List ℕ) := do
  let (trustor, project) ← originalTrust env db fuel (r.trustorUserId, r.projectId) r.redelegatedTrustId
  match r.projectId, project with
  | none, _ => .ok []
  | some _, none => .error .projectNotFound
  | some _, some project => if env.getProject project then .ok (env.effectiveRoles trustor project) else .error .projectNotFound

/-- `create_trust` of the controller, with the bounds of the schema. -/
def create (env : Env) (fuel : ℕ) (db : Db) (auth : Auth) (trustId : ℕ) (r : Request) : Except Error Db := do
  if (∃ n ∈ r.remainingUses, n < 1) ∨ (∃ n ∈ r.requestedCount, n < 0) then .error .validationError
  else do
    let (userId, redelegatedTrust) ← redelegation env fuel db auth
    if r.projectId.isSome ∧ r.roles = [] then .error .forbidden
    else if userId ≠ r.trustorUserId then .error .forbidden
    else if ¬ env.getUser r.trusteeUserId then .error .userNotFound
    else do
      let trustorRoles ← getTrustorRoles env fuel db r
      if ¬ ∀ role ∈ r.roles, role ∈ trustorRoles then .error .roleNotFound
      else if ∃ e ∈ r.expiresAt, e < env.now then .error .validationError
      else createTrust env fuel db trustId r redelegatedTrust

/-- `delete_trust` of the controller, by its trustor or an administrator. -/
def delete (env : Env) (fuel : ℕ) (db : Db) (userId : ℕ) (isAdmin : Bool) (trustId : ℕ) : Except Error Db := do
  let trust ← getTrust env fuel db trustId
  if userId ≠ trust.trustorUserId ∧ isAdmin = false then .error .forbidden
  else deleteTrust env.now fuel db trustId

end Mitaka.Keystone.Trusts
