/-
  Subject: keystone/token/providers/fernet/token_formatters.py, the payload classes,
           `create_token` and `validate_token`; keystone/auth/plugins/core.py, the
           conversion of methods; keystone/token/provider.py, audit ids.

  A payload is a positional tuple; packing, encryption and the base64 of the token are
  one step that can be undone (`Transport`). A time is its whole seconds since the
  epoch, printed and parsed by the clock's format (`TimeFormat`).

  `none` is an exception. The creation time of a token is not modelled.
-/
import Mitaka.Keystone.Text
import Mitaka.Lib.Base64

namespace Mitaka.Keystone

/-! ## 1. What the formatter uses -/

/-- A value that is packed. -/
inductive Value where
  | bool (b : Bool)
  | num (n : Int)
  | text (s : Str)
  | list (l : List Value)

/-- `msgpack` with `pack` and `unpack` of the formatter. -/
structure Transport (τ : Type) where
  pack : List Value → τ
  unpack : τ → Option (List Value)
  unpack_pack : ∀ payload, unpack (pack payload) = some payload

/-- `isotime(…, subsecond=True)` and `parse_isotime`. -/
structure TimeFormat where
  isotime : Int → Str
  parseIsotime : Str → Option Int
  parseIsotime_isotime : ∀ t, parseIsotime (isotime t) = some t

/-- The configuration that is read: `auth.methods` and `identity.default_domain_id`. -/
structure Conf where
  methods : List Str
  defaultDomainId : Str

/-! ## 2. Methods -/

/-- `construct_method_map_from_config`. -/
def methodMap (conf : Conf) : List (Nat × Str) := conf.methods.zipIdx.map fun e => (2 ^ e.2, e.1)

/-- `convert_method_list_to_integer`. -/
def convertMethodListToInteger (conf : Conf) (methods : List Str) : Nat :=
  (methods.flatMap fun m => ((methodMap conf).filter fun e => e.2 = m).map Prod.fst).sum

/-- The loop over `method_ints`. -/
def confirmedMethods : List Nat → Nat → List Nat
  | [], _ => []
  | m :: methodInts, methodInt =>
    if methodInt / m = 1 then m :: confirmedMethods methodInts (methodInt - m)
    else confirmedMethods methodInts methodInt

/-- `convert_integer_to_method_list`. -/
def convertIntegerToMethodList (conf : Conf) (methodInt : Nat) : List Str :=
  if methodInt = 0 then []
  else
    let methodInts := ((methodMap conf).map Prod.fst).insertionSort (· ≥ ·)
    (confirmedMethods methodInts methodInt).filterMap fun m => (methodMap conf).lookup m

/-! ## 3. Ids -/

/-- `attempt_convert_uuid_hex_to_bytes`. -/
def attemptConvert (value : Str) : Value :=
  match uuidInt value with
  | some n => .list [.bool true, .text (uuidBytes n)]
  | none => .list [.bool false, .text value]

/-- `convert_uuid_bytes_to_hex`. -/
def convertUuidBytesToHex (b : Str) : Option Str := (uuidOfBytes b).map uuidHex

/-- An id with its flag `is_stored_as_bytes`. -/
def restoreId : Value → Option Str
  | .list [.bool isStoredAsBytes, .text id] => if isStoredAsBytes then convertUuidBytesToHex id else some id
  | _ => none

/-- `random_urlsafe_str`, for the bytes of the UUID. -/
def randomUrlsafeStr (b : Str) : Str := (Base64.encode b).take ((Base64.encode b).length - 2)

/-- `random_urlsafe_str_to_bytes`. -/
def randomUrlsafeStrToBytes (s : Str) : Option Str := Base64.decode (s ++ ['=', '='])

/-- `base64_encode`. -/
def base64Encode (b : Str) : Str := ((Base64.encode b).reverse.dropWhile (· = '=')).reverse

/-- `b_audit_ids`. -/
def packAuditIds (auditIds : List Str) : Option Value :=
  (auditIds.mapM randomUrlsafeStrToBytes).map fun l => .list (l.map .text)

def unpackAuditId : Value → Option Str
  | .text b => some (base64Encode b)
  | _ => none

def unpackAuditIds : Value → Option (List Str)
  | .list l => l.mapM unpackAuditId
  | _ => none

/-! ## 4. The payload classes -/

structure FederatedInfo where
  groupIds : List Str
  idpId : Str
  protocolId : Str
  deriving DecidableEq

/-- What a token is created from, and what validating it returns. -/
structure TokenInfo where
  userId : Str
  methods : List Str
  projectId : Option Str
  domainId : Option Str
  expiresAt : Str
  auditIds : List Str
  trustId : Option Str
  federatedInfo : Option FederatedInfo
  accessTokenId : Option Str
  deriving DecidableEq

/-- `PAYLOAD_CLASSES`. -/
inductive PayloadClass
  | oauthScoped | trustScoped | federatedProjectScoped | federatedDomainScoped | federatedUnscoped
  | projectScoped | domainScoped | unscoped
  deriving DecidableEq

def PAYLOAD_CLASSES : List PayloadClass :=
  [.oauthScoped, .trustScoped, .federatedProjectScoped, .federatedDomainScoped, .federatedUnscoped,
    .projectScoped, .domainScoped, .unscoped]

namespace PayloadClass

def version : PayloadClass → Int
  | unscoped => 0
  | domainScoped => 1
  | projectScoped => 2
  | trustScoped => 3
  | federatedUnscoped => 4
  | federatedProjectScoped => 5
  | federatedDomainScoped => 6
  | oauthScoped => 7

/-- `create_arguments_apply`. -/
def createArgumentsApply (args : TokenInfo) : PayloadClass → Bool
  | unscoped => true
  | domainScoped => truthy args.domainId
  | projectScoped => truthy args.projectId
  | trustScoped => truthy args.trustId
  | federatedUnscoped => args.federatedInfo.isSome
  | federatedProjectScoped => truthy args.projectId && args.federatedInfo.isSome
  | federatedDomainScoped => truthy args.domainId && args.federatedInfo.isSome
  | oauthScoped => truthy args.accessTokenId

end PayloadClass

/-- The first class that applies. -/
def payloadClass (args : TokenInfo) : PayloadClass :=
  (PAYLOAD_CLASSES.find? (PayloadClass.createArgumentsApply args)).getD .unscoped

section

variable (conf : Conf) (time : TimeFormat)

/-- The integer of the methods. -/
def packMethods (args : TokenInfo) : Value := .num (convertMethodListToInteger conf args.methods)

def unpackMethods : Value → Option (List Str)
  | .num n => some (convertIntegerToMethodList conf n.toNat)
  | _ => none

/-- `_convert_time_string_to_float`. -/
def packExpiresAt (args : TokenInfo) : Option Value := (time.parseIsotime args.expiresAt).map .num

/-- `_convert_float_to_time_string`. -/
def unpackExpiresAt : Value → Option Str
  | .num t => some (time.isotime t)
  | _ => none

/-- `b_domain_id` of a domain-scoped payload: no flag, so only the default domain may
    have an id that is no UUID. -/
def packDomainId (domainId : Str) : Option Value :=
  match uuidInt domainId with
  | some n => some (.text (uuidBytes n))
  | none => if domainId = conf.defaultDomainId then some (.text domainId) else none

def unpackDomainId : Value → Option Str
  | .text b =>
    match convertUuidBytesToHex b with
    | some domainId => some domainId
    | none => if b = conf.defaultDomainId then some b else none
  | _ => none

/-- `b_trust_id`: it has to be a UUID. -/
def packTrustId (trustId : Str) : Option Value := (uuidInt trustId).map fun n => .text (uuidBytes n)

def unpackTrustId : Value → Option Str
  | .text b => convertUuidBytesToHex b
  | _ => none

def packGroupIds (info : FederatedInfo) : Value := .list (info.groupIds.map attemptConvert)

def unpackGroupIds : Value → Option (List Str)
  | .list l => l.mapM restoreId
  | _ => none

def unpackText : Value → Option Str
  | .text s => some s
  | _ => none

/-- `assemble` of the class. -/
def assemble (args : TokenInfo) : PayloadClass → Option (List Value)
  | .unscoped => do
    let expiresAt ← packExpiresAt time args
    let auditIds ← packAuditIds args.auditIds
    some [attemptConvert args.userId, packMethods conf args, expiresAt, auditIds]
  | .domainScoped => do
    let domainId ← args.domainId.bind (packDomainId conf)
    let expiresAt ← packExpiresAt time args
    let auditIds ← packAuditIds args.auditIds
    some [attemptConvert args.userId, packMethods conf args, domainId, expiresAt, auditIds]
  | .projectScoped => do
    let projectId ← args.projectId.map attemptConvert
    let expiresAt ← packExpiresAt time args
    let auditIds ← packAuditIds args.auditIds
    some [attemptConvert args.userId, packMethods conf args, projectId, expiresAt, auditIds]
  | .trustScoped => do
    let projectId ← args.projectId.map attemptConvert
    let trustId ← args.trustId.bind packTrustId
    let expiresAt ← packExpiresAt time args
    let auditIds ← packAuditIds args.auditIds
    some [attemptConvert args.userId, packMethods conf args, projectId, expiresAt, auditIds, trustId]
  | .federatedUnscoped => do
    let info ← args.federatedInfo
    let expiresAt ← packExpiresAt time args
    let auditIds ← packAuditIds args.auditIds
    some [attemptConvert args.userId, packMethods conf args, packGroupIds info, attemptConvert info.idpId,
      .text info.protocolId, expiresAt, auditIds]
  | .federatedProjectScoped | .federatedDomainScoped => do
    let scopeId ← (if truthy args.projectId then args.projectId else args.domainId).map attemptConvert
    let info ← args.federatedInfo
    let expiresAt ← packExpiresAt time args
    let auditIds ← packAuditIds args.auditIds
    some [attemptConvert args.userId, packMethods conf args, scopeId, packGroupIds info, attemptConvert info.idpId,
      .text info.protocolId, expiresAt, auditIds]
  | .oauthScoped => do
    let projectId ← args.projectId.map attemptConvert
    let expiresAt ← packExpiresAt time args
    let auditIds ← packAuditIds args.auditIds
    let accessTokenId ← args.accessTokenId.map attemptConvert
    some [attemptConvert args.userId, packMethods conf args, projectId, accessTokenId, expiresAt, auditIds]

/-- What every class restores. -/
def restoreCommon (userId methods expiresAt auditIds : Value) : Option TokenInfo := do
  let userId ← restoreId userId
  let methods ← unpackMethods conf methods
  let expiresAt ← unpackExpiresAt time expiresAt
  let auditIds ← unpackAuditIds auditIds
  some
    { userId := userId, methods := methods, projectId := none, domainId := none, expiresAt := expiresAt,
      auditIds := auditIds, trustId := none, federatedInfo := none, accessTokenId := none }

/-- `disassemble` of the class. -/
def disassemble : PayloadClass → List Value → Option TokenInfo
  | .unscoped, userId :: methods :: expiresAt :: auditIds :: _ => restoreCommon conf time userId methods expiresAt auditIds
  | .domainScoped, userId :: methods :: domainId :: expiresAt :: auditIds :: _ => do
    let info ← restoreCommon conf time userId methods expiresAt auditIds
    let domainId ← unpackDomainId conf domainId
    some { info with domainId := some domainId }
  | .projectScoped, userId :: methods :: projectId :: expiresAt :: auditIds :: _ => do
    let info ← restoreCommon conf time userId methods expiresAt auditIds
    let projectId ← restoreId projectId
    some { info with projectId := some projectId }
  | .trustScoped, userId :: methods :: projectId :: expiresAt :: auditIds :: trustId :: _ => do
    let info ← restoreCommon conf time userId methods expiresAt auditIds
    let projectId ← restoreId projectId
    let trustId ← unpackTrustId trustId
    some { info with projectId := some projectId, trustId := some trustId }
  | .federatedUnscoped, userId :: methods :: groupIds :: idpId :: protocolId :: expiresAt :: auditIds :: _ => do
    let info ← restoreCommon conf time userId methods expiresAt auditIds
    let groupIds ← unpackGroupIds groupIds
    let idpId ← restoreId idpId
    let protocolId ← unpackText protocolId
    some { info with federatedInfo := some ⟨groupIds, idpId, protocolId⟩ }
  | .federatedProjectScoped,
      userId :: methods :: scopeId :: groupIds :: idpId :: protocolId :: expiresAt :: auditIds :: _ => do
    let info ← restoreCommon conf time userId methods expiresAt auditIds
    let scopeId ← restoreId scopeId
    let groupIds ← unpackGroupIds groupIds
    let idpId ← restoreId idpId
    let protocolId ← unpackText protocolId
    some { info with projectId := some scopeId, federatedInfo := some ⟨groupIds, idpId, protocolId⟩ }
  | .federatedDomainScoped,
      userId :: methods :: scopeId :: groupIds :: idpId :: protocolId :: expiresAt :: auditIds :: _ => do
    let info ← restoreCommon conf time userId methods expiresAt auditIds
    let scopeId ← restoreId scopeId
    let groupIds ← unpackGroupIds groupIds
    let idpId ← restoreId idpId
    let protocolId ← unpackText protocolId
    some { info with domainId := some scopeId, federatedInfo := some ⟨groupIds, idpId, protocolId⟩ }
  | .oauthScoped, userId :: methods :: projectId :: accessTokenId :: expiresAt :: auditIds :: _ => do
    let info ← restoreCommon conf time userId methods expiresAt auditIds
    let projectId ← restoreId projectId
    let accessTokenId ← restoreId accessTokenId
    some { info with projectId := some projectId, accessTokenId := some accessTokenId }
  | _, _ => none

variable {τ : Type} (transport : Transport τ)

/-- `create_token`. -/
def createToken (args : TokenInfo) : Option τ :=
  (assemble conf time args (payloadClass args)).map fun payload =>
    transport.pack (.num (payloadClass args).version :: payload)

/-- `validate_token`. -/
def validateToken (token : τ) : Option TokenInfo :=
  match transport.unpack token with
  | some (.num version :: payload) =>
    match PAYLOAD_CLASSES.find? fun c => version = c.version with
    | none => none
    | some c =>
      (disassemble conf time c payload).bind fun info =>
        (time.parseIsotime info.expiresAt).map fun expiresAt => { info with expiresAt := time.isotime expiresAt }
  | _ => none

end

end Mitaka.Keystone
