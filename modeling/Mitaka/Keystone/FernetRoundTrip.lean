/-
  Subject: What validating a Fernet token returns of what it was created from.

  Every field of a payload is restored on its own. An id comes back as it was when it
  is safe (`restore_attemptConvert`), a domain without a flag also has to be told from
  the bytes of a UUID (`unpack_packDomainId`). The methods are the bits of a number
  (`mem_convertIntegerToMethodList`). `fernet_round_trip_iff` puts the eight classes
  together.
-/
import Mitaka.Keystone.FernetPayload

namespace Mitaka.Keystone

open List Option

/-! ## 1. Methods -/

/-- The number whose bits below `k` are those of `p`. -/
def bitSum (p : Nat → Bool) (k : Nat) : Nat := ((List.range k).map fun i => if p i then 2 ^ i else 0).sum

theorem bitSum_succ (p : Nat → Bool) (k : Nat) : bitSum p (k + 1) = bitSum p k + if p k then 2 ^ k else 0 := by
  rw [bitSum, range_succ, map_append, sum_append]
  simp [bitSum]

theorem bitSum_lt (p : Nat → Bool) (k : Nat) : bitSum p k < 2 ^ k := by
  induction k with
  | zero => simp [bitSum]
  | succ k ih =>
    rw [bitSum_succ, Nat.pow_succ]
    split <;> omega

/-- The powers of two below `k`, the highest first. -/
def powersDown : Nat → List Nat
  | 0 => []
  | k + 1 => 2 ^ k :: powersDown k

/-- **The loop finds the bits.** -/
theorem confirmedMethods_bitSum (p : Nat → Bool) (k : Nat) :
    ∀ m, m ∈ confirmedMethods (powersDown k) (bitSum p k) ↔ ∃ i < k, p i = true ∧ m = 2 ^ i := by
  induction k with
  | zero => simp [powersDown, confirmedMethods]
  | succ k ih =>
    intro m
    have hlt := bitSum_lt p k
    rw [powersDown, confirmedMethods, bitSum_succ]
    by_cases hp : p k = true
    · have hdiv : (bitSum p k + 2 ^ k) / 2 ^ k = 1 := by
        rw [Nat.add_div_right _ (Nat.two_pow_pos k), Nat.div_eq_of_lt hlt]
      rw [if_pos hp, if_pos hdiv, Nat.add_sub_cancel, mem_cons, ih]
      constructor
      · rintro (rfl | ⟨i, hi, hpi, rfl⟩)
        · exact ⟨k, Nat.lt_succ_self k, hp, rfl⟩
        · exact ⟨i, Nat.lt_succ_of_lt hi, hpi, rfl⟩
      · rintro ⟨i, hi, hpi, rfl⟩
        rcases Nat.lt_succ_iff_lt_or_eq.mp hi with hi | rfl
        · exact Or.inr ⟨i, hi, hpi, rfl⟩
        · exact Or.inl rfl
    · have hdiv : (bitSum p k + 0) / 2 ^ k ≠ 1 := by
        rw [Nat.add_zero, Nat.div_eq_of_lt hlt]
        exact Nat.zero_ne_one
      rw [if_neg hp, if_neg hdiv, Nat.add_zero, ih]
      constructor
      · rintro ⟨i, hi, hpi, rfl⟩
        exact ⟨i, Nat.lt_succ_of_lt hi, hpi, rfl⟩
      · rintro ⟨i, hi, hpi, rfl⟩
        rcases Nat.lt_succ_iff_lt_or_eq.mp hi with hi | rfl
        · exact ⟨i, hi, hpi, rfl⟩
        · exact absurd hpi hp

variable {conf : Conf}

theorem mem_methodMap {k : Nat} {m : Str} : (k, m) ∈ methodMap conf ↔ ∃ i, conf.methods[i]? = some m ∧ k = 2 ^ i := by
  rw [methodMap, List.mem_map]
  constructor
  · rintro ⟨⟨x, i⟩, hx, he⟩
    obtain ⟨rfl, rfl⟩ := Prod.mk.inj he
    exact ⟨i, mem_zipIdx_iff_getElem?.mp hx, rfl⟩
  · rintro ⟨i, hi, rfl⟩
    exact ⟨(m, i), mem_zipIdx_iff_getElem?.mpr hi, rfl⟩

theorem keys_methodMap : (methodMap conf).map Prod.fst = (List.range conf.methods.length).map fun i => 2 ^ i := by
  rw [methodMap, List.map_map, range_eq_range', ← zipIdx_map_snd, List.map_map]
  rfl

theorem lookup_methodMap {i : Nat} {m : Str} (h : conf.methods[i]? = some m) :
    (methodMap conf).lookup (2 ^ i) = some m := by
  have hnodup : ((methodMap conf).map Prod.fst).Nodup := by
    rw [keys_methodMap]
    exact (nodup_range).map (Nat.pow_right_injective le_rfl)
  have hmem : (2 ^ i, m) ∈ methodMap conf := mem_methodMap.mpr ⟨i, h, rfl⟩
  generalize methodMap conf = map at hnodup hmem
  induction map with
  | nil => cases hmem
  | cons e map ih =>
    rw [map_cons, nodup_cons] at hnodup
    rw [List.lookup_cons]
    rcases mem_cons.mp hmem with he | hmem
    · rw [← he]
      simp
    · have hne : (2 ^ i == e.1) = false := beq_eq_false_iff_ne.mpr fun he =>
        hnodup.1 (he ▸ List.mem_map_of_mem hmem)
      rw [hne]
      exact ih hnodup.2 hmem

/-- The keys in descending order. -/
theorem sorted_keys : ((methodMap conf).map Prod.fst).insertionSort (· ≥ ·) = powersDown conf.methods.length := by
  have hperm : ∀ k, (powersDown k).Perm ((List.range k).map fun i => 2 ^ i) := fun k => by
    induction k with
    | zero => exact List.Perm.refl _
    | succ k ih =>
      rw [powersDown, range_succ, map_append]
      exact (Perm.cons _ ih).trans (perm_append_singleton _ _).symm
  have hlt : ∀ k, ∀ m ∈ powersDown k, m < 2 ^ k := fun k => by
    induction k with
    | zero => exact fun m hm => nomatch hm
    | succ k ih =>
      intro m hm
      have hpow : 2 ^ k < 2 ^ (k + 1) := Nat.pow_lt_pow_right (by decide) (Nat.lt_succ_self k)
      rcases mem_cons.mp hm with rfl | hm
      · exact hpow
      · exact (ih m hm).trans hpow
  have hsorted : ∀ k, (powersDown k).Pairwise (· ≥ ·) := fun k => by
    induction k with
    | zero => exact List.Pairwise.nil
    | succ k ih => exact pairwise_cons.mpr ⟨fun m hm => (hlt k m hm).le, ih⟩
  rw [keys_methodMap]
  exact ((perm_insertionSort _ _).trans (hperm _).symm).eq_of_pairwise
    (fun _ _ _ _ hab hba => le_antisymm hba hab) (pairwise_insertionSort _ _) (hsorted _)

theorem convertMethodListToInteger_eq {methods : List Str} (h : methods.Nodup) :
    convertMethodListToInteger conf methods =
      bitSum (fun i => decide (∃ m ∈ methods, conf.methods[i]? = some m)) conf.methods.length := by
  have hone : ∀ m, (((methodMap conf).filter fun e => e.2 = m).map Prod.fst).sum =
      bitSum (fun i => decide (conf.methods[i]? = some m)) conf.methods.length := fun m => by
    have hgen : ∀ (l : List Str) (j : Nat), ((((l.zipIdx j).map fun e => ((2 : Nat) ^ e.2, e.1)).filter
        fun e => e.2 = m).map Prod.fst).sum =
        ((range' j l.length).map fun i => if l[i - j]? = some m then 2 ^ i else 0).sum := fun l => by
      induction l with
      | nil => exact fun _ => rfl
      | cons x l ih =>
        intro j
        have htail : ((range' (j + 1) l.length).map fun i => if (x :: l)[i - j]? = some m then 2 ^ i else 0) =
            (range' (j + 1) l.length).map fun i => if l[i - (j + 1)]? = some m then 2 ^ i else 0 := by
          refine map_congr_left fun i hi => ?_
          obtain ⟨k, hk⟩ : ∃ k, i - j = k + 1 := ⟨i - j - 1, by have := (mem_range'_1.mp hi).1; omega⟩
          rw [hk, getElem?_cons_succ, show i - (j + 1) = k by omega]
        rw [zipIdx_cons, length_cons, range'_succ, map_cons, map_cons, sum_cons, htail,
          ← ih (j + 1), Nat.sub_self, getElem?_cons_zero, filter_cons]
        by_cases hx : x = m
        · simp [hx]
        · simp [hx]
    rw [methodMap, hgen conf.methods 0, bitSum, range_eq_range']
    simp
  unfold convertMethodListToInteger
  induction methods with
  | nil => simp [bitSum]
  | cons m methods ih =>
    rw [flatMap_cons, sum_append, ih (nodup_cons.mp h).2, hone m, bitSum, bitSum, bitSum,
      ← sum_map_add]
    refine congrArg List.sum (map_congr_left fun i _ => ?_)
    by_cases hi : conf.methods[i]? = some m
    · have hnot : m ∉ methods := (nodup_cons.mp h).1
      simp [hi, hnot]
    · simp [hi]

/-- **The methods come back.** -/
theorem mem_convertIntegerToMethodList {methods : List Str} (hnodup : methods.Nodup)
    (hconf : ∀ m ∈ methods, m ∈ conf.methods) (m : Str) :
    m ∈ convertIntegerToMethodList conf (convertMethodListToInteger conf methods) ↔ m ∈ methods := by
  rw [convertMethodListToInteger_eq hnodup, convertIntegerToMethodList]
  have hbits := confirmedMethods_bitSum (fun i => decide (∃ m ∈ methods, conf.methods[i]? = some m))
    conf.methods.length
  have hmem : m ∈ ((confirmedMethods (powersDown conf.methods.length)
      (bitSum (fun i => decide (∃ m ∈ methods, conf.methods[i]? = some m)) conf.methods.length)).filterMap
        fun m => (methodMap conf).lookup m) ↔ m ∈ methods := by
    rw [mem_filterMap]
    constructor
    · rintro ⟨k, hk, hlookup⟩
      obtain ⟨i, -, hi, rfl⟩ := (hbits k).mp hk
      obtain ⟨x, hx, hget⟩ := of_decide_eq_true hi
      rw [lookup_methodMap hget] at hlookup
      exact Option.some.inj hlookup ▸ hx
    · intro hm
      obtain ⟨i, hi, hget⟩ := getElem_of_mem (hconf m hm)
      have hget' : conf.methods[i]? = some m := List.getElem?_eq_some_iff.mpr ⟨hi, hget⟩
      exact ⟨2 ^ i, (hbits _).mpr ⟨i, hi, decide_eq_true ⟨m, hm, hget'⟩, rfl⟩, lookup_methodMap hget'⟩
  split
  case isTrue hzero =>
    rw [hzero] at hmem
    rw [← hmem]
    have hnil : ∀ k, confirmedMethods (powersDown k) 0 = [] := fun k => by
      induction k with
      | zero => rfl
      | succ k ih => rw [powersDown, confirmedMethods, Nat.zero_div, if_neg Nat.zero_ne_one, ih]
    rw [hnil]
    rfl
  case isFalse =>
    rw [sorted_keys]
    exact hmem

/-! ## 2. Single fields -/

/-- A UUID that was read is printed in its canonical form. -/
theorem hex_of_bytes (n : Nat) : ∃ m, convertUuidBytesToHex (uuidBytes n) = some (uuidHex m) ∧
    (n < 16 ^ 32 → m = n) := by
  have hlen : (uuidBytes n).length = 16 := length_bytesOf 16 n
  refine ⟨_, by rw [convertUuidBytesToHex, uuidOfBytes, if_pos hlen, map_some], fun h => ?_⟩
  have hn := uuidOfBytes_uuidBytes h
  rw [uuidOfBytes, if_pos hlen] at hn
  exact Option.some.inj hn

/-- Reading as a UUID and printing. -/
theorem hex_eq_iff {v : Str} {n m : Nat} (hv : uuidInt v = some n) (hm : n < 16 ^ 32 → m = n) :
    uuidHex m = v ↔ UuidSafe v := by
  constructor
  · intro h
    exact Or.inr (h ▸ canonical_uuidHex m)
  · rintro (h | h)
    · rw [hv] at h
      cases h
    · obtain ⟨k, hk, hint, hhex⟩ := uuidInt_of_canonical h
      obtain rfl := Option.some.inj (hint.symm.trans hv)
      rw [hm hk, hhex]

/-- **A flagged id comes back as it was exactly when it is safe.** -/
theorem restore_attemptConvert (v : Str) : ∃ w, restoreId (attemptConvert v) = some w ∧ (w = v ↔ UuidSafe v) := by
  rw [attemptConvert]
  cases hv : uuidInt v with
  | none => exact ⟨v, rfl, fun _ => Or.inl hv, fun _ => rfl⟩
  | some n =>
    obtain ⟨m, hm, hmn⟩ := hex_of_bytes n
    exact ⟨uuidHex m, hm, hex_eq_iff hv hmn⟩

theorem unpack_packTrustId {v : Str} {p : Value} (h : packTrustId v = some p) :
    ∃ w, unpackTrustId p = some w ∧ (w = v ↔ UuidSafe v) := by
  obtain ⟨n, hv, rfl⟩ := map_eq_some_iff.mp h
  obtain ⟨m, hm, hmn⟩ := hex_of_bytes n
  exact ⟨uuidHex m, hm, hex_eq_iff hv hmn⟩

/-- **A domain without a flag** must not look like the bytes of a UUID either. -/
theorem unpack_packDomainId {v : Str} {p : Value} (h : packDomainId conf v = some p) :
    ∃ w, unpackDomainId conf p = some w ∧ (w = v ↔ UuidSafe v ∧ (uuidInt v = none → v.length ≠ 16)) := by
  rw [packDomainId] at h
  cases hv : uuidInt v with
  | some n =>
    rw [hv] at h
    obtain rfl := Option.some.inj h
    obtain ⟨m, hm, hmn⟩ := hex_of_bytes n
    refine ⟨uuidHex m, by rw [unpackDomainId, hm], (hex_eq_iff hv hmn).trans ?_⟩
    exact ⟨fun h => ⟨h, fun hnone => nomatch hnone⟩, fun h => h.1⟩
  | none =>
    rw [hv] at h
    dsimp only at h
    split at h
    case isFalse => cases h
    case isTrue hdefault =>
      obtain rfl := Option.some.inj h
      by_cases hlen : v.length = 16
      · refine ⟨uuidHex (v.foldl (fun n c => n * 256 + c.toNat) 0), ?_, fun he => ?_, fun ⟨_, hne⟩ => absurd hlen (hne rfl)⟩
        · rw [unpackDomainId, convertUuidBytesToHex, uuidOfBytes, if_pos hlen]
          rfl
        · have h32 := (canonical_uuidHex (v.foldl (fun n c => n * 256 + c.toNat) 0)).1
          rw [he, hlen] at h32
          exact absurd h32 (by decide)
      · refine ⟨v, ?_, fun _ => ⟨Or.inl hv, fun _ => hlen⟩, fun _ => rfl⟩
        rw [unpackDomainId, convertUuidBytesToHex, uuidOfBytes, if_neg hlen]
        exact if_pos hdefault

theorem unpack_packGroupIds (info : FederatedInfo) : ∃ ws, unpackGroupIds (packGroupIds info) = some ws ∧
    (ws = info.groupIds ↔ ∀ v ∈ info.groupIds, UuidSafe v) := by
  rw [packGroupIds, unpackGroupIds]
  generalize info.groupIds = l
  induction l with
  | nil => exact ⟨[], rfl, fun _ _ hv => (nomatch hv), fun _ => rfl⟩
  | cons v l ih =>
    obtain ⟨w, hw, hwv⟩ := restore_attemptConvert v
    obtain ⟨ws, hws, hwsl⟩ := ih
    refine ⟨w :: ws, ?_, ?_⟩
    · rw [map_cons, mapM_cons, hw, hws]
      rfl
    · rw [List.cons.injEq, hwv, hwsl, forall_mem_cons]

/-- An audit id as it is generated. -/
def AuditId (s : Str) : Prop := ∃ b : Str, b.length = 16 ∧ (∀ c ∈ b, c.toNat < 256) ∧ s = randomUrlsafeStr b

theorem auditId_bytes {s : Str} (h : AuditId s) : ∃ b, randomUrlsafeStrToBytes s = some b ∧ base64Encode b = s := by
  obtain ⟨b, hlen, hbyte, rfl⟩ := h
  obtain ⟨t, c, hpad, hc⟩ := Base64.encode_padding (s := b) (by rw [hlen]) hbyte
  have hs : randomUrlsafeStr b = t ++ [c] := by
    rw [randomUrlsafeStr, hpad, length_append, show t.length + [c, '=', '='].length - 2 = (t ++ [c]).length by simp,
      show t ++ [c, '=', '='] = (t ++ [c]) ++ ['=', '='] by simp]
    exact take_left
  refine ⟨b, ?_, ?_⟩
  · rw [randomUrlsafeStrToBytes, hs, append_assoc]
    exact hpad ▸ Base64.decode_encode hbyte
  · rw [hs, base64Encode, hpad]
    simp [hc]

theorem unpack_packAuditIds {auditIds : List Str} (h : ∀ s ∈ auditIds, AuditId s) {p : Value}
    (hp : packAuditIds auditIds = some p) : unpackAuditIds p = some auditIds := by
  obtain ⟨bs, hbs, rfl⟩ := map_eq_some_iff.mp hp
  rw [unpackAuditIds]
  clear hp
  induction auditIds generalizing bs with
  | nil =>
    obtain rfl := Option.some.inj hbs
    rfl
  | cons s auditIds ih =>
    obtain ⟨b, hb, hbs'⟩ := auditId_bytes (h s mem_cons_self)
    rw [mapM_cons, hb, bind_eq_bind, bind_some] at hbs
    obtain ⟨rest, hrest, he⟩ := bind_eq_some_iff.mp hbs
    obtain rfl := Option.some.inj he
    rw [map_cons, mapM_cons, ih (fun x hx => h x (mem_cons_of_mem _ hx)) rest hrest, unpackAuditId, hbs']
    rfl

/-! ## 3. What comes back -/

/-- What was asked for, the methods as a set. -/
structure TokenInfo.Same (info args : TokenInfo) : Prop where
  userId : info.userId = args.userId
  methods : ∀ m, m ∈ info.methods ↔ m ∈ args.methods
  projectId : info.projectId = args.projectId
  domainId : info.domainId = args.domainId
  expiresAt : info.expiresAt = args.expiresAt
  auditIds : info.auditIds = args.auditIds
  trustId : info.trustId = args.trustId
  federatedInfo : info.federatedInfo = args.federatedInfo
  accessTokenId : info.accessTokenId = args.accessTokenId

/-- The scope is one that the class has the fields for. -/
def PayloadClass.Fits (args : TokenInfo) : PayloadClass → Prop
  | unscoped => args.projectId = none ∧ args.domainId = none ∧ args.trustId = none ∧ args.federatedInfo = none ∧
      args.accessTokenId = none
  | domainScoped => args.projectId = none ∧ args.trustId = none ∧ args.federatedInfo = none ∧ args.accessTokenId = none
  | projectScoped => args.domainId = none ∧ args.trustId = none ∧ args.federatedInfo = none ∧ args.accessTokenId = none
  | trustScoped => args.domainId = none ∧ args.federatedInfo = none ∧ args.accessTokenId = none
  | federatedUnscoped => args.projectId = none ∧ args.domainId = none ∧ args.trustId = none ∧ args.accessTokenId = none
  | federatedProjectScoped => args.domainId = none ∧ args.trustId = none ∧ args.accessTokenId = none
  | federatedDomainScoped => args.projectId = none ∧ args.trustId = none ∧ args.accessTokenId = none
  | oauthScoped => args.domainId = none ∧ args.trustId = none ∧ args.federatedInfo = none

/-- What tokens are created from. -/
structure Admissible (conf : Conf) (time : TimeFormat) (args : TokenInfo) : Prop where
  fits : (payloadClass args).Fits args
  distinct : args.methods.Nodup
  configured : ∀ m ∈ args.methods, m ∈ conf.methods
  generated : ∀ s ∈ args.auditIds, AuditId s
  wholeSeconds : ∃ t, args.expiresAt = time.isotime t

/-- The ids of the identity provider and of the groups. -/
def FederatedInfo.ids (info : FederatedInfo) : List Str := info.idpId :: info.groupIds

/-- All ids of a token. -/
def TokenInfo.ids (args : TokenInfo) : List Str :=
  args.userId :: (args.projectId.toList ++ args.domainId.toList ++ args.trustId.toList ++ args.accessTokenId.toList ++
    (args.federatedInfo.map FederatedInfo.ids).getD [])

/-- No id is read as a UUID unless it is the canonical form of one, and the domain of a
    domain-scoped token, when it is no UUID, is not 16 bytes long. -/
def SafeIds (args : TokenInfo) : Prop :=
  (∀ id ∈ args.ids, UuidSafe id) ∧
    (payloadClass args = .domainScoped → ∀ d ∈ args.domainId, uuidInt d = none → d.length ≠ 16)

section

variable {time : TimeFormat} {args : TokenInfo}

/-- What every class restores. -/
def restored (args : TokenInfo) (userId : Str) (methods : List Str) : TokenInfo :=
  { userId := userId, methods := methods, projectId := none, domainId := none, expiresAt := args.expiresAt,
    auditIds := args.auditIds, trustId := none, federatedInfo := none, accessTokenId := none }

theorem restoreCommon_pack (h : Admissible conf time args) {e a : Value} (he : packExpiresAt time args = some e)
    (ha : packAuditIds args.auditIds = some a) :
    ∃ w methods, restoreCommon conf time (attemptConvert args.userId) (packMethods conf args) e a =
        some (restored args w methods) ∧
      (w = args.userId ↔ UuidSafe args.userId) ∧ ∀ m, m ∈ methods ↔ m ∈ args.methods := by
  obtain ⟨w, hw, hiff⟩ := restore_attemptConvert args.userId
  obtain ⟨t, ht⟩ := h.wholeSeconds
  rw [packExpiresAt, ht, time.parseIsotime_isotime] at he
  obtain rfl := Option.some.inj he
  refine ⟨w, convertIntegerToMethodList conf (convertMethodListToInteger conf args.methods), ?_, hiff,
    mem_convertIntegerToMethodList h.distinct h.configured⟩
  rw [restoreCommon, hw, packMethods, unpackMethods, unpackExpiresAt, unpack_packAuditIds h.generated ha, ← ht]
  rfl

/-- A payload of the class of the request comes back with the expiry, and as it was
    exactly when its ids are safe. -/
def RoundTrip (conf : Conf) (time : TimeFormat) (args : TokenInfo) (c : PayloadClass) (payload : List Value) : Prop :=
  ∃ info, disassemble conf time c payload = some info ∧ info.expiresAt = args.expiresAt ∧
    (info.Same args ↔ SafeIds args)

theorem same_iff {info : TokenInfo} : info.Same args ↔ info.userId = args.userId ∧
    (∀ m, m ∈ info.methods ↔ m ∈ args.methods) ∧ info.projectId = args.projectId ∧ info.domainId = args.domainId ∧
    info.expiresAt = args.expiresAt ∧ info.auditIds = args.auditIds ∧ info.trustId = args.trustId ∧
    info.federatedInfo = args.federatedInfo ∧ info.accessTokenId = args.accessTokenId :=
  ⟨fun h => ⟨h.1, h.2, h.3, h.4, h.5, h.6, h.7, h.8, h.9⟩,
    fun ⟨h1, h2, h3, h4, h5, h6, h7, h8, h9⟩ => ⟨h1, h2, h3, h4, h5, h6, h7, h8, h9⟩⟩

variable {payload : List Value}

theorem roundTrip_unscoped (h : Admissible conf time args) (hc : payloadClass args = .unscoped)
    (hp : assemble conf time args .unscoped = some payload) : RoundTrip conf time args .unscoped payload := by
  obtain ⟨hproject, hdomain, htrust, hfed, haccess⟩ : PayloadClass.Fits args .unscoped := hc ▸ h.fits
  simp only [assemble, bind_eq_bind, bind_eq_some_iff] at hp
  obtain ⟨e, he, a, ha, hpayload⟩ := hp
  obtain rfl := Option.some.inj hpayload
  obtain ⟨w, methods, hcommon, hw, hmethods⟩ := restoreCommon_pack h he ha
  refine ⟨restored args w methods, hcommon, rfl, ?_⟩
  simp [same_iff, restored, SafeIds, TokenInfo.ids, hc, hproject, hdomain, htrust, hfed, haccess, hw, hmethods]

theorem roundTrip_projectScoped (h : Admissible conf time args) (hc : payloadClass args = .projectScoped)
    (hp : assemble conf time args .projectScoped = some payload) : RoundTrip conf time args .projectScoped payload := by
  obtain ⟨hdomain, htrust, hfed, haccess⟩ : PayloadClass.Fits args .projectScoped := hc ▸ h.fits
  simp only [assemble, bind_eq_bind, bind_eq_some_iff, map_eq_some_iff] at hp
  obtain ⟨_, ⟨project, hproject, rfl⟩, e, he, a, ha, hpayload⟩ := hp
  obtain rfl := Option.some.inj hpayload
  obtain ⟨w, methods, hcommon, hw, hmethods⟩ := restoreCommon_pack h he ha
  obtain ⟨wp, hwp, hpiff⟩ := restore_attemptConvert project
  refine ⟨{ restored args w methods with projectId := some wp }, ?_, rfl, ?_⟩
  · unfold disassemble
    simp only [hcommon, hwp, bind_eq_bind, bind_some]
  · simp [same_iff, restored, SafeIds, TokenInfo.ids, hc, hproject, hdomain, htrust, hfed, haccess, hw, hmethods, hpiff]

theorem roundTrip_domainScoped (h : Admissible conf time args) (hc : payloadClass args = .domainScoped)
    (hp : assemble conf time args .domainScoped = some payload) : RoundTrip conf time args .domainScoped payload := by
  obtain ⟨hproject, htrust, hfed, haccess⟩ : PayloadClass.Fits args .domainScoped := hc ▸ h.fits
  simp only [assemble, bind_eq_bind, bind_eq_some_iff] at hp
  obtain ⟨packed, ⟨domain, hdomain, hpacked⟩, e, he, a, ha, hpayload⟩ := hp
  obtain rfl := Option.some.inj hpayload
  obtain ⟨w, methods, hcommon, hw, hmethods⟩ := restoreCommon_pack h he ha
  obtain ⟨wd, hwd, hdiff⟩ := unpack_packDomainId hpacked
  refine ⟨{ restored args w methods with domainId := some wd }, ?_, rfl, ?_⟩
  · unfold disassemble
    simp only [hcommon, hwd, bind_eq_bind, bind_some]
  · simp [same_iff, restored, SafeIds, TokenInfo.ids, hc, hproject, hdomain, htrust, hfed, haccess, hw, hmethods, hdiff, and_assoc]

theorem roundTrip_trustScoped (h : Admissible conf time args) (hc : payloadClass args = .trustScoped)
    (hp : assemble conf time args .trustScoped = some payload) : RoundTrip conf time args .trustScoped payload := by
  obtain ⟨hdomain, hfed, haccess⟩ : PayloadClass.Fits args .trustScoped := hc ▸ h.fits
  simp only [assemble, bind_eq_bind, bind_eq_some_iff, map_eq_some_iff] at hp
  obtain ⟨_, ⟨project, hproject, rfl⟩, packed, ⟨trust, htrust, hpacked⟩, e, he, a, ha, hpayload⟩ := hp
  obtain rfl := Option.some.inj hpayload
  obtain ⟨w, methods, hcommon, hw, hmethods⟩ := restoreCommon_pack h he ha
  obtain ⟨wp, hwp, hpiff⟩ := restore_attemptConvert project
  obtain ⟨wt, hwt, htiff⟩ := unpack_packTrustId hpacked
  refine ⟨{ restored args w methods with projectId := some wp, trustId := some wt }, ?_, rfl, ?_⟩
  · unfold disassemble
    simp only [hcommon, hwp, hwt, bind_eq_bind, bind_some]
  · simp [same_iff, restored, SafeIds, TokenInfo.ids, hc, hproject, hdomain, htrust, hfed, haccess, hw, hmethods, hpiff, htiff]

theorem roundTrip_oauthScoped (h : Admissible conf time args) (hc : payloadClass args = .oauthScoped)
    (hp : assemble conf time args .oauthScoped = some payload) : RoundTrip conf time args .oauthScoped payload := by
  obtain ⟨hdomain, htrust, hfed⟩ : PayloadClass.Fits args .oauthScoped := hc ▸ h.fits
  simp only [assemble, bind_eq_bind, bind_eq_some_iff, map_eq_some_iff] at hp
  obtain ⟨_, ⟨project, hproject, rfl⟩, e, he, a, ha, _, ⟨access, haccess, rfl⟩, hpayload⟩ := hp
  obtain rfl := Option.some.inj hpayload
  obtain ⟨w, methods, hcommon, hw, hmethods⟩ := restoreCommon_pack h he ha
  obtain ⟨wp, hwp, hpiff⟩ := restore_attemptConvert project
  obtain ⟨wa, hwa, haiff⟩ := restore_attemptConvert access
  refine ⟨{ restored args w methods with projectId := some wp, accessTokenId := some wa }, ?_, rfl, ?_⟩
  · unfold disassemble
    simp only [hcommon, hwp, hwa, bind_eq_bind, bind_some]
  · simp [same_iff, restored, SafeIds, TokenInfo.ids, hc, hproject, hdomain, htrust, hfed, haccess, hw, hmethods, hpiff, haiff]

/-- The federated info of any class. -/
theorem unpack_federatedInfo (info : FederatedInfo) : ∃ groups idp, unpackGroupIds (packGroupIds info) = some groups ∧
    restoreId (attemptConvert info.idpId) = some idp ∧
    ((⟨groups, idp, info.protocolId⟩ : FederatedInfo) = info ↔ ∀ id ∈ info.ids, UuidSafe id) := by
  obtain ⟨groups, hgroups, hgiff⟩ := unpack_packGroupIds info
  obtain ⟨idp, hidp, hiiff⟩ := restore_attemptConvert info.idpId
  refine ⟨groups, idp, hgroups, hidp, ?_⟩
  obtain ⟨groupIds, idpId, protocolId⟩ := info
  rw [FederatedInfo.ids, forall_mem_cons, ← hiiff, ← hgiff]
  simp only [FederatedInfo.mk.injEq, and_true]
  exact and_comm

theorem roundTrip_federatedUnscoped (h : Admissible conf time args) (hc : payloadClass args = .federatedUnscoped)
    (hp : assemble conf time args .federatedUnscoped = some payload) :
    RoundTrip conf time args .federatedUnscoped payload := by
  obtain ⟨hproject, hdomain, htrust, haccess⟩ : PayloadClass.Fits args .federatedUnscoped := hc ▸ h.fits
  simp only [assemble, bind_eq_bind, bind_eq_some_iff] at hp
  obtain ⟨info, hfed, e, he, a, ha, hpayload⟩ := hp
  obtain rfl := Option.some.inj hpayload
  obtain ⟨w, methods, hcommon, hw, hmethods⟩ := restoreCommon_pack h he ha
  obtain ⟨groups, idp, hgroups, hidp, hfiff⟩ := unpack_federatedInfo info
  refine ⟨{ restored args w methods with federatedInfo := some ⟨groups, idp, info.protocolId⟩ }, ?_, rfl, ?_⟩
  · unfold disassemble
    simp only [hcommon, hgroups, hidp, unpackText, bind_eq_bind, bind_some]
  · simp [same_iff, restored, SafeIds, TokenInfo.ids, hc, hproject, hdomain, htrust, hfed, haccess, hw, hmethods, hfiff]

theorem roundTrip_federatedProjectScoped (h : Admissible conf time args)
    (hc : payloadClass args = .federatedProjectScoped)
    (hp : assemble conf time args .federatedProjectScoped = some payload) :
    RoundTrip conf time args .federatedProjectScoped payload := by
  obtain ⟨hdomain, htrust, haccess⟩ : PayloadClass.Fits args .federatedProjectScoped := hc ▸ h.fits
  simp only [assemble, bind_eq_bind, bind_eq_some_iff, map_eq_some_iff, hdomain] at hp
  obtain ⟨_, ⟨project, hproject, rfl⟩, info, hfed, e, he, a, ha, hpayload⟩ := hp
  obtain rfl := Option.some.inj hpayload
  obtain ⟨w, methods, hcommon, hw, hmethods⟩ := restoreCommon_pack h he ha
  obtain ⟨wp, hwp, hpiff⟩ := restore_attemptConvert project
  obtain ⟨groups, idp, hgroups, hidp, hfiff⟩ := unpack_federatedInfo info
  have hproject' : args.projectId = some project := by
    split at hproject
    · exact hproject
    · cases hproject
  refine ⟨{ restored args w methods with projectId := some wp, federatedInfo := some ⟨groups, idp, info.protocolId⟩ }, ?_, rfl, ?_⟩
  · unfold disassemble
    simp only [hcommon, hwp, hgroups, hidp, unpackText, bind_eq_bind, bind_some]
  · simp [same_iff, restored, SafeIds, TokenInfo.ids, hc, hproject', hdomain, htrust, hfed, haccess, hw, hmethods, hpiff, hfiff]

theorem roundTrip_federatedDomainScoped (h : Admissible conf time args)
    (hc : payloadClass args = .federatedDomainScoped)
    (hp : assemble conf time args .federatedDomainScoped = some payload) :
    RoundTrip conf time args .federatedDomainScoped payload := by
  obtain ⟨hproject, htrust, haccess⟩ : PayloadClass.Fits args .federatedDomainScoped := hc ▸ h.fits
  have hfalsy : truthy none = false := rfl
  simp only [assemble, bind_eq_bind, bind_eq_some_iff, map_eq_some_iff, hproject, hfalsy,
    Bool.false_eq_true, if_false] at hp
  obtain ⟨_, ⟨domain, hdomain, rfl⟩, info, hfed, e, he, a, ha, hpayload⟩ := hp
  obtain rfl := Option.some.inj hpayload
  obtain ⟨w, methods, hcommon, hw, hmethods⟩ := restoreCommon_pack h he ha
  obtain ⟨wd, hwd, hdiff⟩ := restore_attemptConvert domain
  obtain ⟨groups, idp, hgroups, hidp, hfiff⟩ := unpack_federatedInfo info
  refine ⟨{ restored args w methods with domainId := some wd, federatedInfo := some ⟨groups, idp, info.protocolId⟩ }, ?_, rfl, ?_⟩
  · unfold disassemble
    simp only [hcommon, hwd, hgroups, hidp, unpackText, bind_eq_bind, bind_some]
  · simp [same_iff, restored, SafeIds, TokenInfo.ids, hc, hproject, hdomain, htrust, hfed, haccess, hw, hmethods, hdiff, hfiff]

theorem roundTrip (h : Admissible conf time args) (hp : assemble conf time args (payloadClass args) = some payload) :
    RoundTrip conf time args (payloadClass args) payload := by
  cases hc : payloadClass args with
  | oauthScoped => exact roundTrip_oauthScoped h hc (hc ▸ hp)
  | trustScoped => exact roundTrip_trustScoped h hc (hc ▸ hp)
  | federatedProjectScoped => exact roundTrip_federatedProjectScoped h hc (hc ▸ hp)
  | federatedDomainScoped => exact roundTrip_federatedDomainScoped h hc (hc ▸ hp)
  | federatedUnscoped => exact roundTrip_federatedUnscoped h hc (hc ▸ hp)
  | projectScoped => exact roundTrip_projectScoped h hc (hc ▸ hp)
  | domainScoped => exact roundTrip_domainScoped h hc (hc ▸ hp)
  | unscoped => exact roundTrip_unscoped h hc (hc ▸ hp)

theorem find_version (c : PayloadClass) : (PAYLOAD_CLASSES.find? fun d => c.version = d.version) = some c := by
  cases c <;> rfl

end

/-! ### An unscoped token -/

def epochText : Str := "1970-01-01T00:00:00.000000Z".toList

/-- A format that prints the epoch as the real one does. -/
def epochFormat : TimeFormat where
  isotime t := if t = 0 then epochText else '+' :: Nat.toDigits 10 (Encodable.encode t)
  parseIsotime s :=
    if s = epochText then some 0
    else
      match s with
      | '+' :: digits => (Numeral.readNat 10 digits).bind Encodable.decode
      | _ => none
  parseIsotime_isotime t := by
    by_cases ht : t = 0
    · simp [ht]
    · have hne : '+' :: Nat.toDigits 10 (Encodable.encode t) ≠ epochText := fun h => by
        have hhead : some '+' = epochText.head? := congrArg head? h
        exact absurd hhead (by decide)
      rw [if_neg ht, if_neg hne]
      change (Numeral.readNat 10 (Nat.toDigits 10 (Encodable.encode t))).bind Encodable.decode = some t
      rw [Numeral.readNat_toDigits (by decide) (by decide), bind_some, Encodable.encodek]

def plainTransport : Transport (List Value) := ⟨id, some, fun _ => rfl⟩

def someConf : Conf := ⟨["external".toList, "password".toList, "token".toList], "default".toList⟩

/-- A password token of a user. -/
def unscopedToken (userId : Str) : TokenInfo :=
  { userId := userId, methods := ["password".toList], projectId := none, domainId := none, expiresAt := epochText,
    auditIds := [randomUrlsafeStr (replicate 16 'a')], trustId := none, federatedInfo := none,
    accessTokenId := none }

theorem admissible_unscopedToken (userId : Str) : Admissible someConf epochFormat (unscopedToken userId) where
  fits := ⟨rfl, rfl, rfl, rfl, rfl⟩
  distinct := nodup_singleton _
  configured := fun m hm => mem_cons_of_mem _ (mem_singleton.mp hm ▸ mem_cons_self)
  generated := fun x hx => by
    obtain rfl := mem_singleton.mp hx
    exact ⟨replicate 16 'a', rfl, fun c hc => eq_of_mem_replicate hc ▸ (by decide), rfl⟩
  wholeSeconds := ⟨0, rfl⟩

end Mitaka.Keystone
