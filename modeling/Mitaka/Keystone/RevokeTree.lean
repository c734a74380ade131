/-
  Subject: keystone/models/revoke_model.py, `RevokeEvent` and `RevokeTree`.

  The tree is an index of nested dicts whose keys are texts `name=value`. A missing
  attribute of an event is the text `*`, a missing value of a token the text `None`.
  The search is compared with a scan over the events (`isRevoked_iff`): they agree
  where no id of an event is one of these two texts.

  Ids and names are texts; a time is a naive datetime in UTC.
-/
import Mitaka.Keystone.Text
import Mitaka.Lib.KeyTree

namespace Mitaka.Keystone

open Numeral List

/-! ## 1. Times -/

/-- A `datetime`. -/
@[ext] structure DateTime where
  year : Fin 10000
  month : Fin 100
  day : Fin 100
  hour : Fin 100
  minute : Fin 100
  second : Fin 100
  microsecond : Fin 1000000
  deriving DecidableEq

namespace DateTime

/-- The fields in the order in which they are compared. -/
def key (t : DateTime) : ℕ ×ₗ ℕ ×ₗ ℕ ×ₗ ℕ ×ₗ ℕ ×ₗ ℕ ×ₗ ℕ :=
  toLex (t.year, toLex (t.month, toLex (t.day, toLex (t.hour, toLex (t.minute, toLex (t.second, t.microsecond))))))

theorem key_injective : Function.Injective key := by
  intro a b h
  simp only [key, toLex_inj, Prod.mk.injEq, Fin.val_inj] at h
  exact DateTime.ext h.1 h.2.1 h.2.2.1 h.2.2.2.1 h.2.2.2.2.1 h.2.2.2.2.2.1 h.2.2.2.2.2.2

instance : LinearOrder DateTime := LinearOrder.lift' key key_injective

/-- `str`: the microseconds are left out when there are none. -/
def str (t : DateTime) : Str :=
  padDigits 10 4 t.year ++ '-' :: padDigits 10 2 t.month ++ '-' :: padDigits 10 2 t.day ++ ' ' ::
    padDigits 10 2 t.hour ++ ':' :: padDigits 10 2 t.minute ++ ':' :: padDigits 10 2 t.second ++
    if t.microsecond = 0 then [] else '.' :: padDigits 10 6 t.microsecond

/-- `replace(microsecond=0)`. -/
def trim (t : DateTime) : DateTime := { t with microsecond := 0 }

end DateTime

/-! ## 2. Events and tokens -/

/-- `_EVENT_NAMES`. -/
inductive EventName
  | trust_id | consumer_id | access_token_id | audit_id | audit_chain_id | expires_at | domain_id
  | project_id | user_id | role_id | domain_scope_id
  deriving DecidableEq

def EVENT_NAMES : List EventName :=
  [.trust_id, .consumer_id, .access_token_id, .audit_id, .audit_chain_id, .expires_at, .domain_id,
    .project_id, .user_id, .role_id, .domain_scope_id]

def EventName.str : EventName → Str
  | .trust_id => "trust_id".toList
  | .consumer_id => "consumer_id".toList
  | .access_token_id => "access_token_id".toList
  | .audit_id => "audit_id".toList
  | .audit_chain_id => "audit_chain_id".toList
  | .expires_at => "expires_at".toList
  | .domain_id => "domain_id".toList
  | .project_id => "project_id".toList
  | .user_id => "user_id".toList
  | .role_id => "role_id".toList
  | .domain_scope_id => "domain_scope_id".toList

/-- The arguments of `RevokeEvent`. -/
structure RevokeArgs where
  trustId : Option Str := none
  consumerId : Option Str := none
  accessTokenId : Option Str := none
  auditId : Option Str := none
  auditChainId : Option Str := none
  expiresAt : Option DateTime := none
  domainId : Option Str := none
  projectId : Option Str := none
  userId : Option Str := none
  roleId : Option Str := none
  issuedBefore : Option DateTime := none
  revokedAt : Option DateTime := none
  deriving DecidableEq

structure RevokeEvent where
  trustId : Option Str
  consumerId : Option Str
  accessTokenId : Option Str
  auditId : Option Str
  auditChainId : Option Str
  expiresAt : Option DateTime
  domainId : Option Str
  projectId : Option Str
  userId : Option Str
  roleId : Option Str
  domainScopeId : Option Str
  issuedBefore : DateTime
  revokedAt : DateTime
  deriving DecidableEq

/-- `RevokeEvent.__init__` at the time `utcnow`. -/
def RevokeEvent.init (args : RevokeArgs) (utcnow : DateTime) : RevokeEvent :=
  let domainScoped := truthy args.domainId && args.expiresAt.isSome
  let revokedAt := args.revokedAt.getD utcnow.trim
  { trustId := args.trustId
    consumerId := args.consumerId
    accessTokenId := args.accessTokenId
    auditId := args.auditId
    auditChainId := args.auditChainId
    expiresAt := args.expiresAt.map DateTime.trim
    domainId := if domainScoped then none else args.domainId
    projectId := args.projectId
    userId := args.userId
    roleId := args.roleId
    domainScopeId := if domainScoped then args.domainId else none
    issuedBefore := args.issuedBefore.getD revokedAt
    revokedAt := revokedAt }

/-- The values of a token. -/
structure TokenData where
  trustId : Option Str
  consumerId : Option Str
  accessTokenId : Option Str
  auditId : Option Str
  auditChainId : Option Str
  expiresAt : Option DateTime
  projectId : Option Str
  userId : Option Str
  identityDomainId : Option Str
  assignmentDomainId : Option Str
  trustorId : Option Str
  trusteeId : Option Str
  /-- absent where the key is -/
  roles : Option (List Str)
  issuedAt : DateTime
  deriving DecidableEq

/-! ## 3. The tree -/

/-- An attribute of the event, printed. -/
def RevokeEvent.attr (event : RevokeEvent) : EventName → Option Str
  | .trust_id => event.trustId
  | .consumer_id => event.consumerId
  | .access_token_id => event.accessTokenId
  | .audit_id => event.auditId
  | .audit_chain_id => event.auditChainId
  | .expires_at => event.expiresAt.map DateTime.str
  | .domain_id => event.domainId
  | .project_id => event.projectId
  | .user_id => event.userId
  | .role_id => event.roleId
  | .domain_scope_id => event.domainScopeId

/-- `'%s=%s' % (name, value)`. -/
def nameKey (name : EventName) (value : Str) : Str := name.str ++ '=' :: value

/-- `key_for_name`. -/
def RevokeEvent.keyForName (event : RevokeEvent) (name : EventName) : Str :=
  nameKey name (if truthy (event.attr name) then (event.attr name).getD [] else ['*'])

/-- The nested dicts, with `issued_before` at the leaves. -/
abbrev RevokeMap (names : List EventName) := KeyTree Str DateTime names

/-- `issued_before` of a leaf. -/
def RevokeEvent.latest (event : RevokeEvent) (issuedBefore : Option DateTime) : DateTime :=
  max event.issuedBefore (issuedBefore.getD event.issuedBefore)

/-- `add_event`. -/
def addEvent (revokeMap : RevokeMap EVENT_NAMES) (event : RevokeEvent) : RevokeMap EVENT_NAMES :=
  KeyTree.insert event.keyForName event.latest EVENT_NAMES revokeMap

/-- `RevokeTree.__init__`. -/
def revokeTree (revokeEvents : List RevokeEvent) : RevokeMap EVENT_NAMES :=
  revokeEvents.foldl addEvent (KeyTree.empty EVENT_NAMES)

/-- `'%s'` of a value. -/
def formatted (v : Option Str) : Str := v.getD "None".toList

/-- `_next_level_keys`, with `ALTERNATIVES`. -/
def nextLevelKeys (tokenData : TokenData) : EventName → List Str
  | .role_id => ['*'] :: tokenData.roles.getD []
  | .user_id => [['*'], formatted tokenData.userId, formatted tokenData.trustorId, formatted tokenData.trusteeId]
  | .domain_id => [['*'], formatted tokenData.identityDomainId, formatted tokenData.assignmentDomainId]
  | .domain_scope_id => [['*'], formatted tokenData.assignmentDomainId]
  | .trust_id => [['*'], formatted tokenData.trustId]
  | .consumer_id => [['*'], formatted tokenData.consumerId]
  | .access_token_id => [['*'], formatted tokenData.accessTokenId]
  | .audit_id => [['*'], formatted tokenData.auditId]
  | .audit_chain_id => [['*'], formatted tokenData.auditChainId]
  | .expires_at => [['*'], formatted (tokenData.expiresAt.map DateTime.str)]
  | .project_id => [['*'], formatted tokenData.projectId]

/-- `is_revoked`, with `_search`. -/
def isRevoked (revokeMap : RevokeMap EVENT_NAMES) (tokenData : TokenData) : Bool :=
  KeyTree.search (fun name => (nextLevelKeys tokenData name).map (nameKey name))
    (fun issuedBefore => decide (tokenData.issuedAt ≤ issuedBefore)) EVENT_NAMES revokeMap

/-! ## 4. The scan -/

/-- An attribute that is set is one of the values. -/
def Among {α : Type} (attr : Option α) (values : List (Option α)) : Prop := ∀ v, attr = some v → some v ∈ values

/-- The event revokes the token. -/
structure RevokeEvent.Matches (event : RevokeEvent) (token : TokenData) : Prop where
  time : token.issuedAt ≤ event.issuedBefore
  trust : Among event.trustId [token.trustId]
  consumer : Among event.consumerId [token.consumerId]
  accessToken : Among event.accessTokenId [token.accessTokenId]
  audit : Among event.auditId [token.auditId]
  auditChain : Among event.auditChainId [token.auditChainId]
  expires : Among event.expiresAt [token.expiresAt]
  domain : Among event.domainId [token.identityDomainId, token.assignmentDomainId]
  domainScope : Among event.domainScopeId [token.assignmentDomainId]
  project : Among event.projectId [token.projectId]
  user : Among event.userId [token.userId, token.trustorId, token.trusteeId]
  role : Among event.roleId ((token.roles.getD []).map some)

/-- Ids that are not empty, nor one of the texts that stand for a missing value. A
    role is only compared with roles, which are not missing. -/
structure RevokeEvent.Plain (event : RevokeEvent) : Prop where
  nonempty : ∀ name v, event.attr name = some v → v ≠ []
  wildcard : ∀ name v, event.attr name = some v → v ≠ ['*']
  missing : ∀ name v, name ≠ .role_id → event.attr name = some v → v ≠ "None".toList

/-! ## 5. The printed times -/

theorem padDigits_inj {w m n : Nat} (hm : m < 10 ^ w) (hn : n < 10 ^ w) (h : padDigits 10 w m = padDigits 10 w n) :
    m = n := by
  have hlt := padDigits_lt_iff (b := 10) (by decide) (by decide) hm hn
  have hgt := padDigits_lt_iff (b := 10) (by decide) (by decide) hn hm
  rw [h] at hlt
  rw [← h] at hgt
  exact le_antisymm (not_lt.mp fun hc => lt_irrefl _ (hgt.mpr hc)) (not_lt.mp fun hc => lt_irrefl _ (hlt.mpr hc))

/-- A printed number and what follows it. -/
theorem padDigits_append_inj {w m n : Nat} {s t : Str} (hm : m < 10 ^ w) (hn : n < 10 ^ w)
    (h : padDigits 10 w m ++ s = padDigits 10 w n ++ t) : m = n ∧ s = t := by
  obtain ⟨h1, h2⟩ := append_inj h (by rw [length_padDigits, length_padDigits])
  exact ⟨padDigits_inj hm hn h1, h2⟩

theorem DateTime.str_injective : Function.Injective DateTime.str := by
  intro a b h
  simp only [DateTime.str, append_assoc, cons_append] at h
  obtain ⟨hyear, h⟩ := padDigits_append_inj (w := 4) a.year.isLt b.year.isLt h
  obtain ⟨hmonth, h⟩ := padDigits_append_inj (w := 2) a.month.isLt b.month.isLt (tail_eq_of_cons_eq h)
  obtain ⟨hday, h⟩ := padDigits_append_inj (w := 2) a.day.isLt b.day.isLt (tail_eq_of_cons_eq h)
  obtain ⟨hhour, h⟩ := padDigits_append_inj (w := 2) a.hour.isLt b.hour.isLt (tail_eq_of_cons_eq h)
  obtain ⟨hminute, h⟩ := padDigits_append_inj (w := 2) a.minute.isLt b.minute.isLt (tail_eq_of_cons_eq h)
  obtain ⟨hsecond, h⟩ := padDigits_append_inj (w := 2) a.second.isLt b.second.isLt (tail_eq_of_cons_eq h)
  have hmicro : a.microsecond = b.microsecond := by
    split at h
    · split at h
      · rw [‹a.microsecond = 0›, ‹b.microsecond = 0›]
      · cases h
    · split at h
      · cases h
      · exact Fin.ext (padDigits_inj (w := 6) a.microsecond.isLt b.microsecond.isLt (tail_eq_of_cons_eq h))
  exact DateTime.ext (Fin.ext hyear) (Fin.ext hmonth) (Fin.ext hday) (Fin.ext hhour) (Fin.ext hminute)
    (Fin.ext hsecond) hmicro

/-! ## 6. One event -/

theorem nameKey_injective (name : EventName) : Function.Injective (nameKey name) := fun _ _ h =>
  tail_eq_of_cons_eq (append_cancel_left h)

variable {event : RevokeEvent}

/-- The key of the event is tried when its attribute is not set, or one of the texts. -/
theorem keyForName_mem (h : event.Plain) (name : EventName) {texts : List Str} :
    event.keyForName name ∈ (['*'] :: texts).map (nameKey name) ↔ ∀ v, event.attr name = some v → v ∈ texts := by
  rw [RevokeEvent.keyForName, List.mem_map_of_injective (nameKey_injective name)]
  cases hv : event.attr name with
  | none => simp [truthy]
  | some v =>
    have hne : v ≠ [] := h.nonempty name v hv
    have hstar : v ≠ ['*'] := h.wildcard name v hv
    simp [truthy, hne, hstar]

/-- A text that is not `None` is a formatted value exactly when it is the value. -/
theorem mem_map_formatted {v : Str} (h : v ≠ "None".toList) (values : List (Option Str)) :
    v ∈ values.map formatted ↔ some v ∈ values := by
  rw [List.mem_map]
  constructor
  · rintro ⟨o, ho, rfl⟩
    cases o with
    | none => exact absurd rfl h
    | some w => exact ho
  · exact fun h => ⟨some v, h, rfl⟩

/-- The keys of a name other than a role. -/
theorem keyForName_mem_formatted (h : event.Plain) {name : EventName}
    (hname : name ≠ .role_id) (values : List (Option Str)) :
    event.keyForName name ∈ (['*'] :: values.map formatted).map (nameKey name) ↔ Among (event.attr name) values := by
  rw [keyForName_mem h]
  exact forall₂_congr fun v hv => mem_map_formatted (h.missing name v hname hv) values

theorem among_map {α β : Type} {f : α → β} (hf : Function.Injective f) (attr : Option α) (value : Option α) :
    Among (attr.map f) [value.map f] ↔ Among attr [value] := by
  cases attr with
  | none => simp [Among]
  | some a =>
    cases value with
    | none => simp [Among]
    | some b => simp [Among, hf.eq_iff]

/-- **The keys of an event are tried exactly when it matches**, the time aside. -/
theorem keys_iff_matches (h : event.Plain) (token : TokenData) :
    (token.issuedAt ≤ event.issuedBefore ∧
      ∀ name ∈ EVENT_NAMES, event.keyForName name ∈ (nextLevelKeys token name).map (nameKey name)) ↔
      event.Matches token := by
  have hrole : event.keyForName .role_id ∈ (nextLevelKeys token .role_id).map (nameKey .role_id) ↔
      Among event.roleId ((token.roles.getD []).map some) := by
    rw [nextLevelKeys, keyForName_mem h]
    simp [Among, RevokeEvent.attr]
  have hexpires : event.keyForName .expires_at ∈ (nextLevelKeys token .expires_at).map (nameKey .expires_at) ↔
      Among event.expiresAt [token.expiresAt] :=
    (keyForName_mem_formatted h (by decide) [token.expiresAt.map DateTime.str]).trans
      (among_map DateTime.str_injective _ _)
  have key {name : EventName} (hname : name ≠ .role_id) (values : List (Option Str)) :=
    keyForName_mem_formatted h hname values
  constructor
  · rintro ⟨htime, hall⟩
    exact ⟨htime, (key (by decide) [_]).mp (hall .trust_id (by decide)),
      (key (by decide) [_]).mp (hall .consumer_id (by decide)),
      (key (by decide) [_]).mp (hall .access_token_id (by decide)),
      (key (by decide) [_]).mp (hall .audit_id (by decide)),
      (key (by decide) [_]).mp (hall .audit_chain_id (by decide)), hexpires.mp (hall .expires_at (by decide)),
      (key (by decide) [_, _]).mp (hall .domain_id (by decide)),
      (key (by decide) [_]).mp (hall .domain_scope_id (by decide)),
      (key (by decide) [_]).mp (hall .project_id (by decide)),
      (key (by decide) [_, _, _]).mp (hall .user_id (by decide)), hrole.mp (hall .role_id (by decide))⟩
  · intro hm
    refine ⟨hm.time, fun name _ => ?_⟩
    cases name with
    | trust_id => exact (key (by decide) [_]).mpr hm.trust
    | consumer_id => exact (key (by decide) [_]).mpr hm.consumer
    | access_token_id => exact (key (by decide) [_]).mpr hm.accessToken
    | audit_id => exact (key (by decide) [_]).mpr hm.audit
    | audit_chain_id => exact (key (by decide) [_]).mpr hm.auditChain
    | expires_at => exact hexpires.mpr hm.expires
    | domain_id => exact (key (by decide) [_, _]).mpr hm.domain
    | project_id => exact (key (by decide) [_]).mpr hm.project
    | user_id => exact (key (by decide) [_, _, _]).mpr hm.user
    | role_id => exact hrole.mpr hm.role
    | domain_scope_id => exact (key (by decide) [_]).mpr hm.domainScope

/-! ## 7. The tree and the scan -/

/-- The leaf of some events has the latest of their times. -/
theorem any_leaf (issuedAt : DateTime) (events : List RevokeEvent) :
    (KeyTree.build RevokeEvent.keyForName RevokeEvent.latest ([] : List EventName) events).value.any
        (fun issuedBefore => decide (issuedAt ≤ issuedBefore)) = true ↔
      ∃ e ∈ events, issuedAt ≤ e.issuedBefore := by
  induction events using reverseRecOn with
  | nil => simp [KeyTree.build, KeyTree.empty]
  | append_singleton events e ih =>
    rw [KeyTree.build_append, KeyTree.insert, KeyTree.value_leaf]
    revert ih
    cases (KeyTree.build RevokeEvent.keyForName RevokeEvent.latest ([] : List EventName) events).value with
    | none =>
      intro ih
      simp only [Option.any_none, Bool.false_eq_true, false_iff, not_exists, not_and] at ih
      simp only [Option.any_some, RevokeEvent.latest, Option.getD_none, max_self, decide_eq_true_iff]
      constructor
      · exact fun h => ⟨e, mem_append_right _ (mem_singleton_self e), h⟩
      · rintro ⟨f, hf, h⟩
        rcases mem_append.mp hf with hf | hf
        · exact absurd h (ih f hf)
        · exact mem_singleton.mp hf ▸ h
    | some t =>
      intro ih
      simp only [Option.any_some, RevokeEvent.latest, Option.getD_some, decide_eq_true_iff, le_max_iff] at ih ⊢
      rw [ih]
      constructor
      · rintro (h | ⟨f, hf, h⟩)
        · exact ⟨e, mem_append_right _ (mem_singleton_self e), h⟩
        · exact ⟨f, mem_append_left _ hf, h⟩
      · rintro ⟨f, hf, h⟩
        rcases mem_append.mp hf with hf | hf
        · exact Or.inr ⟨f, hf, h⟩
        · exact Or.inl (mem_singleton.mp hf ▸ h)

/-- The tree is searched for an event of which all keys are tried. -/
theorem isRevoked_iff_keys (events : List RevokeEvent) (token : TokenData) :
    isRevoked (revokeTree events) token = true ↔ ∃ e ∈ events, token.issuedAt ≤ e.issuedBefore ∧
      ∀ name ∈ EVENT_NAMES, e.keyForName name ∈ (nextLevelKeys token name).map (nameKey name) :=
  KeyTree.search_build RevokeEvent.keyForName RevokeEvent.latest (any_leaf token.issuedAt) EVENT_NAMES events

/-- The order of the events does not matter. -/
theorem revokeTree_same {events events' : List RevokeEvent} (h : events.Perm events') :
    KeyTree.Same EVENT_NAMES (revokeTree events) (revokeTree events') := by
  refine KeyTree.build_same _ _ (fun e f o => ?_) EVENT_NAMES h
  cases o with
  | none => simp [RevokeEvent.latest, max_comm]
  | some t => simp [RevokeEvent.latest, max_left_comm]

/-- **The tree answers like a scan**, and does not depend on the order of the events. -/
theorem isRevoked_iff {events : List RevokeEvent} (h : ∀ e ∈ events, e.Plain) :
    (∀ token, isRevoked (revokeTree events) token = true ↔ ∃ e ∈ events, e.Matches token) ∧
      ∀ events', events.Perm events' → KeyTree.Same EVENT_NAMES (revokeTree events) (revokeTree events') := by
  refine ⟨fun token => (isRevoked_iff_keys events token).trans ?_, fun _ hperm => revokeTree_same hperm⟩
  exact exists_congr fun e => and_congr_right fun he => keys_iff_matches (h e he) token

/-! ### Events for one attribute -/

def epoch : DateTime := ⟨1970, 1, 1, 0, 0, 0, 0⟩

/-- A token without any value. -/
def blankToken : TokenData :=
  { trustId := none, consumerId := none, accessTokenId := none, auditId := none, auditChainId := none,
    expiresAt := none, projectId := none, userId := none, identityDomainId := none,
    assignmentDomainId := none, trustorId := none, trusteeId := none, roles := none, issuedAt := epoch }

def userEvent (userId : Str) : RevokeEvent := RevokeEvent.init { userId := some userId } epoch

def trustEvent (trustId : Str) : RevokeEvent := RevokeEvent.init { trustId := some trustId } epoch

theorem plain_userEvent {userId : Str} (h0 : userId ≠ []) (h1 : userId ≠ ['*']) (h2 : userId ≠ "None".toList) :
    (userEvent userId).Plain := by
  have hattr : ∀ name v, (userEvent userId).attr name = some v → v = userId := fun name v h => by
    cases name <;> first | exact (Option.some.inj h).symm | cases h
  exact ⟨fun name v h => hattr name v h ▸ h0, fun name v h => hattr name v h ▸ h1,
    fun name v _ h => hattr name v h ▸ h2⟩

/-- The tokens of a user are revoked. -/
theorem isRevoked_iff_user :
    isRevoked (revokeTree [userEvent ['u']]) { blankToken with userId := some ['u'] } = true :=
  ((isRevoked_iff (forall_mem_singleton.mpr
      (plain_userEvent (by decide) (by decide) (by decide)))).1 _).mpr
    ⟨userEvent ['u'], mem_singleton_self _, le_rfl, nofun, nofun, nofun, nofun, nofun, nofun, nofun, nofun,
      nofun, fun _ h => h ▸ mem_cons_self, nofun⟩

/-- A user whose id is `*` revokes the tokens of all users, and a trust whose id is
    `None` the tokens without a trust. -/
theorem isRevoked_wildcard :
    (isRevoked (revokeTree [userEvent ['*']]) { blankToken with userId := some ['u'] } = true ∧
      ¬ ∃ e ∈ [userEvent ['*']], e.Matches { blankToken with userId := some ['u'] }) ∧
    isRevoked (revokeTree [trustEvent "None".toList]) blankToken = true ∧
      ¬ ∃ e ∈ [trustEvent "None".toList], e.Matches blankToken := by
  refine ⟨⟨?_, ?_⟩, ?_, ?_⟩
  · refine (isRevoked_iff_keys _ _).mpr ⟨_, mem_singleton_self _, le_rfl, fun name _ => ?_⟩
    cases name <;> exact mem_cons_self
  · rintro ⟨e, he, hm⟩
    obtain rfl := mem_singleton.mp he
    have huser := hm.user ['*'] rfl
    exact absurd huser (by decide)
  · refine (isRevoked_iff_keys _ _).mpr ⟨_, mem_singleton_self _, le_rfl, fun name _ => ?_⟩
    cases name <;> first | exact mem_cons_self | exact mem_cons_of_mem _ mem_cons_self
  · rintro ⟨e, he, hm⟩
    obtain rfl := mem_singleton.mp he
    have htrust := hm.trust "None".toList rfl
    exact absurd htrust (by decide)

end Mitaka.Keystone
