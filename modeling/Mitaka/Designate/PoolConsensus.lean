/-
  Subject: What `update_status` keeps: reports behind every serial, serials that rise.

  * `Manager.Log`: every cached serial has been reported, and so has, by enough
    nameservers, the serial of every success cast to central.
  * `Manager.Log.updateStatus`: `update_status` keeps the log of a `Fair` pool.
  * `Manager.updateStatus_noLower`: it lowers no cached serial where the answers to its
    polls are `Rising`.
-/
import Mitaka.Designate.PoolManager

namespace Mitaka.Designate

open List

/-! ## 1. What has been reported -/

/-- The nameserver has reported the serial or a later one for the zone. -/
def Reported (reported : List Report) (nameserver zoneId serial : ℕ) : Prop :=
  ∃ r ∈ reported, r.nameserver = nameserver ∧ r.zoneId = zoneId ∧ serial ≤ r.serial

instance (reported : List Report) (nameserver zoneId serial : ℕ) :
    Decidable (Reported reported nameserver zoneId serial) := by
  unfold Reported
  infer_instance

namespace Pool

/-- The nameservers of the pool that have. -/
def reporters (pool : Pool) (reported : List Report) (zoneId serial : ℕ) : List ℕ :=
  pool.nameservers.filter fun n => Reported reported n zoneId serial

/-- **At least `threshold` percent of the nameservers have reported the serial.** -/
def Consensus (pool : Pool) (reported : List Report) (zoneId serial : ℕ) : Prop :=
  pool.threshold * pool.nameservers.length ≤ 100 * (pool.reporters reported zoneId serial).length

instance (pool : Pool) (reported : List Report) (zoneId serial : ℕ) :
    Decidable (pool.Consensus reported zoneId serial) := by
  unfold Consensus
  infer_instance

/-- As many nameservers as are `threshold` percent of the targets are `threshold` percent of the
nameservers. Without targets no threshold is ever met. -/
def Fair (pool : Pool) : Prop :=
  pool.targets = 0 ∨ ∀ count ≤ pool.nameservers.length, pool.threshold * pool.targets ≤ 100 * count →
    pool.threshold * pool.nameservers.length ≤ 100 * count

/-- A pool with a target for each nameserver is fair. -/
theorem fair_of_le {pool : Pool} (h : pool.nameservers.length ≤ pool.targets) : pool.Fair :=
  Or.inr fun _ _ hc => (Nat.mul_le_mul_left _ h).trans hc

end Pool

theorem Reported.mono {reported reported' : List Report} (h : reported ⊆ reported') {n z serial serial' : ℕ}
    (hs : serial' ≤ serial) (hr : Reported reported n z serial) : Reported reported' n z serial' := by
  obtain ⟨r, hr, hn, hz, hle⟩ := hr
  exact ⟨r, h hr, hn, hz, hs.trans hle⟩

theorem Pool.Consensus.mono {pool : Pool} {reported reported' : List Report} (h : reported ⊆ reported')
    {z serial serial' : ℕ} (hs : serial' ≤ serial) (hc : pool.Consensus reported z serial) :
    pool.Consensus reported' z serial' := by
  refine hc.trans (Nat.mul_le_mul_left _ (Sublist.length_le (monotone_filter_right _ fun n hn => ?_)))
  exact decide_eq_true ((of_decide_eq_true hn).mono h hs)

namespace Manager

variable {pool : Pool} {m : Manager}

/-- **Every cached serial has been reported, and every success is the consensus.** -/
structure Log (pool : Pool) (m : Manager) : Prop where
  cached : ∀ n z a status, m.cache n z a = some status →
    status.serialNumber = 0 ∨ Reported m.reported n z status.serialNumber
  success : ∀ c ∈ m.casts, c.status = .success → pool.Consensus m.reported c.zoneId c.serial

theorem Log.report (h : m.Log pool) (n z serial : ℕ) : (m.report n z serial).Log pool := by
  have hsub : m.reported ⊆ (m.report n z serial).reported := subset_cons_self _ _
  refine ⟨fun n' z' a status hc => ?_, fun c hc hs => (h.success c hc hs).mono hsub le_rfl⟩
  exact (h.cached n' z' a status hc).imp_right fun hr => hr.mono hsub le_rfl

theorem Log.store (h : m.Log pool) {n z : ℕ} {a : Act} {status : Option PoolManagerStatus}
    (hs : ∀ st, status = some st → st.serialNumber = 0 ∨ Reported m.reported n z st.serialNumber) :
    (m.store n z a status).Log pool := by
  refine ⟨fun n' z' a' st hc => ?_, h.success⟩
  rw [store_cache] at hc
  split_ifs at hc with hk
  · obtain ⟨rfl, rfl, rfl⟩ := hk
    exact hs st hc
  · exact h.cached n' z' a' st hc

theorem Log.cast (h : m.Log pool) {c : Cast}
    (hc : c.status = .success → pool.Consensus m.reported c.zoneId c.serial) : (m.cast c).Log pool := by
  refine ⟨h.cached, fun c' hc' hs => ?_⟩
  rcases mem_append.mp hc' with hc' | hc'
  · exact h.success c' hc' hs
  · cases mem_singleton.mp hc'
    exact hc hs

theorem ofAnswer_serialNumber (a : Act) (answer : PollStatus × ℕ) :
    (ofAnswer a answer).1.serialNumber = answer.2 := by
  rcases answer with ⟨status, serial⟩
  cases status <;> cases a <;> rfl

theorem Log.retrieveFromMdns (h : m.Log pool) (n z : ℕ) (a : Act) (answer : PollStatus × ℕ) :
    (m.retrieveFromMdns n z a answer).Log pool := by
  refine (h.report n z answer.2).store fun st hst => Or.inr ?_
  cases Option.some.inj hst
  exact ⟨⟨n, z, answer.2⟩, mem_cons_self, rfl, rfl, (ofAnswer_serialNumber a answer).le⟩

/-! ## 2. The statuses of a zone -/

section Retrieve

variable (z : ℕ) (a : Act) (answers : Answers)

theorem retrieveStatuses_reported (ns : List ℕ) (m : Manager) :
    m.reported ⊆ (retrieveStatuses z a answers ns m).2.reported := by
  induction ns generalizing m with
  | nil => exact Subset.refl _
  | cons n ns ih =>
    unfold retrieveStatuses
    split
    · exact ih m
    · split
      · exact ih m
      · exact fun r hr => ih (m.retrieveFromMdns n z a _) (mem_cons_of_mem _ hr)

theorem Log.retrieveStatuses (ns : List ℕ) (h : m.Log pool) :
    (Manager.retrieveStatuses z a answers ns m).2.Log pool := by
  induction ns generalizing m with
  | nil => exact h
  | cons n ns ih =>
    unfold Manager.retrieveStatuses
    split
    · exact ih h
    · split
      · exact ih h
      · exact ih (h.retrieveFromMdns n z a _)

theorem serialCount_cons (status : PoolManagerStatus) (statuses : List PoolManagerStatus) (serial : ℕ) :
    serialCount (status :: statuses) serial =
      (if serial ≤ status.serialNumber then 1 else 0) + serialCount statuses serial := by
  unfold serialCount
  rw [filter_cons]
  by_cases h : serial ≤ status.serialNumber
  · rw [if_pos h, if_pos (decide_eq_true h), length_cons, Nat.add_comm]
  · rw [if_neg h, if_neg (by simpa using h), Nat.zero_add]

/-- **No more statuses are at a serial than nameservers have reported it.** -/
theorem serialCount_le {serial : ℕ} (h0 : serial ≠ 0) (ns : List ℕ) (h : m.Log pool) :
    serialCount (retrieveStatuses z a answers ns m).1 serial ≤
      (ns.filter fun n => Reported (retrieveStatuses z a answers ns m).2.reported n z serial).length := by
  -- a status at the serial, whether cached or just polled, has been reported at the end
  have hcount : ∀ {n ns m' status},
      (status.serialNumber = 0 ∨ Reported m'.reported n z status.serialNumber) →
      serialCount (retrieveStatuses z a answers ns m').1 serial ≤
        (ns.filter fun n => Reported (retrieveStatuses z a answers ns m').2.reported n z serial).length →
      serialCount (status :: (retrieveStatuses z a answers ns m').1) serial ≤
        ((n :: ns).filter fun n => Reported (retrieveStatuses z a answers ns m').2.reported n z serial).length := by
    intro n ns m' status hs ih
    rw [serialCount_cons, filter_cons]
    by_cases hle : serial ≤ status.serialNumber
    · have hr := (hs.resolve_left (by omega)).mono (retrieveStatuses_reported z a answers ns m') hle
      rw [if_pos hle, if_pos (decide_eq_true hr), length_cons]
      omega
    · rw [if_neg hle]
      split
      · rw [length_cons]
        omega
      · omega
  induction ns generalizing m with
  | nil => exact Nat.zero_le _
  | cons n ns ih =>
    rw [retrieveStatuses]
    split
    · rename_i status hc
      exact hcount (h.cached n z a status hc) (ih h)
    · split
      · refine (ih h).trans ?_
        rw [filter_cons]
        split
        · exact (Nat.le_succ _)
        · exact le_rfl
      · rename_i answer _
        have hlog := h.retrieveFromMdns n z a answer
        refine hcount (Or.inr ?_) (ih hlog)
        exact ⟨⟨n, z, answer.2⟩, mem_cons_self, rfl, rfl, (ofAnswer_serialNumber a answer).le⟩

end Retrieve

theorem consensusOf_spec {statuses : List PoolManagerStatus} {serials : List ℕ} {serial : ℕ}
    (h : consensusOf pool statuses serials = some serial) : serial = 0 ∨
      pool.exceedOrMeetThreshold (serialCount statuses serial) pool.threshold = some true := by
  induction serials with
  | nil => exact Or.inl (Option.some.inj h).symm
  | cons s serials ih =>
    rw [consensusOf] at h
    split at h
    · cases h
    · rename_i hmeet
      cases Option.some.inj h
      exact Or.inr hmeet
    · exact ih h

theorem exceedOrMeetThreshold_spec {count : ℕ} (h : pool.exceedOrMeetThreshold count pool.threshold = some true) :
    pool.targets ≠ 0 ∧ pool.threshold * pool.targets ≤ 100 * count := by
  unfold Pool.exceedOrMeetThreshold at h
  simp only [ite_self] at h
  split_ifs at h with h0
  exact ⟨h0, of_decide_eq_true (Option.some.inj h)⟩

/-- **In a fair pool a consensus serial is the consensus.** -/
theorem getConsensusSerial_consensus (hp : pool.Fair) (h : m.Log pool) {zone : Zone} {answers : Answers} {serial : ℕ}
    (hs : (m.getConsensusSerial pool zone answers).1 = some serial) (h0 : serial ≠ 0) :
    pool.Consensus (m.getConsensusSerial pool zone answers).2.reported zone.id serial := by
  obtain ⟨ht, hmeet⟩ := exceedOrMeetThreshold_spec ((consensusOf_spec hs).resolve_left h0)
  have hcount := serialCount_le zone.id zone.action answers h0 pool.nameservers h
  exact (hp.resolve_left ht) _ (List.length_filter_le _ _) (hmeet.trans (Nat.mul_le_mul_left _ hcount))

/-! ## 3. `update_status` keeps the log -/

theorem Log.cacheReport (h : m.Log pool) (zone : Zone) (n : ℕ) (status : PollStatus) (serial : ℕ) :
    (m.cacheReport zone n status serial).2.Log pool := by
  have hr := h.report n zone.id serial
  have hstore : ∀ {m' : Manager}, m'.Log pool → m'.reported = (m.report n zone.id serial).reported →
      ∀ current : PoolManagerStatus, (if serial ≠ 0 ∧ current.serialNumber ≤ serial then
        m'.store n zone.id zone.action (some ⟨some status, serial⟩) else m').Log pool := by
    intro m' hm' he current
    split_ifs
    · refine hm'.store fun st hst => Or.inr ?_
      cases Option.some.inj hst
      exact ⟨⟨n, zone.id, serial⟩, he ▸ mem_cons_self, rfl, rfl, le_rfl⟩
    · exact hm'
  unfold Manager.cacheReport
  simp only
  split
  · exact hstore hr rfl _
  · refine hstore (hr.store fun st hst => Or.inl ?_) rfl _
    cases Option.some.inj hst
    rfl

theorem Log.castSuccess (h : m.Log pool) {zone : Zone} (cacheSerial : ℕ) {serial : ℕ}
    (hc : serial ≠ 0 → pool.Consensus m.reported zone.id serial) :
    (m.castSuccess zone cacheSerial serial).Log pool := by
  unfold Manager.castSuccess
  split_ifs with hcond
  · exact h.cast fun _ => hc hcond.1
  · exact h

theorem Log.isConsensus (h : m.Log pool) (zone : Zone) (status : PollStatus) (threshold : ℕ) (answers : Answers) :
    (m.isConsensus pool zone status threshold answers).2.Log pool :=
  h.retrieveStatuses zone.id zone.action answers pool.nameservers

theorem Log.getErrorSerial (h : m.Log pool) (zone : Zone) (serial : ℕ) (answers : ℕ → Answers) :
    (m.getErrorSerial pool zone serial answers).2.Log pool := by
  have hc := h.isConsensus zone .error pool.threshold (answers 0)
  unfold Manager.getErrorSerial
  simp only
  split
  · exact hc
  · exact hc
  · exact hc.retrieveStatuses zone.id zone.action (answers 1) pool.nameservers

theorem Log.castError (h : m.Log pool) (zone : Zone) (status : PollStatus) (serial : ℕ) (answers : ℕ → Answers) :
    (m.castError pool zone status serial answers).2.Log pool := by
  have he := h.getErrorSerial zone serial answers
  unfold Manager.castError
  simp only
  split_ifs
  · split
    · exact he
    · simp only
      split_ifs
      · exact he.cast nofun
      · exact he
  · exact h

theorem Log.castNoZone (h : m.Log pool) (zone : Zone) (status : PollStatus) : (m.castNoZone zone status).Log pool := by
  unfold Manager.castNoZone
  split_ifs
  · exact h.cast nofun
  · exact h

theorem Log.clearCache (h : m.Log pool) (z : ℕ) (a : Act) : (m.clearCache pool z a).Log pool := by
  unfold Manager.clearCache
  generalize pool.nameservers = ns
  induction ns generalizing m with
  | nil => exact h
  | cons n ns ih => exact ih (h.store nofun)

theorem Log.clearDone (h : m.Log pool) (zone : Zone) (serial : ℕ) (answers : Answers) :
    (m.clearDone pool zone serial answers).Log pool := by
  have hc := h.isConsensus zone .success Pool.maximumThreshold answers
  unfold Manager.clearDone
  simp only
  split_ifs
  · exact hc.clearCache zone.id zone.action
  · exact hc
  · exact h

/-- **`update_status` keeps the log of a fair pool.** -/
theorem Log.updateStatus (hp : pool.Fair) (h : m.Log pool) (zone : Zone) (n : ℕ) (status : PollStatus) (serial : ℕ)
    (answers : ℕ → Answers) : (m.updateStatus pool zone n status serial answers).Log pool := by
  have hc := h.cacheReport zone n status serial
  have hget := hc.retrieveStatuses zone.id zone.action (answers 0) pool.nameservers
  unfold Manager.updateStatus
  simp only
  split
  · exact hget
  · rename_i consensusSerial hs
    have hsuccess := hget.castSuccess (m.cacheReport zone n status serial).1
      (getConsensusSerial_consensus hp hc hs)
    have herror := hsuccess.castError zone status consensusSerial fun i => answers (i + 1)
    split
    · exact herror
    · exact (herror.castNoZone zone status).clearDone zone consensusSerial (answers 3)

theorem Log.prepare (h : m.Log pool) (z : ℕ) (a : Act) : (m.prepare pool z a).Log pool := by
  unfold Manager.prepare
  generalize pool.nameservers = ns
  induction ns generalizing m with
  | nil => exact h
  | cons n ns ih =>
    rw [foldl_cons]
    refine ih ?_
    split_ifs
    · refine h.store fun st hst => Or.inl ?_
      cases Option.some.inj hst
      rfl
    · exact h

/-! ## 4. Cached serials that rise -/

end Manager

/-- Every cached status is still there, at its serial or a later one. -/
def Rises (cache cache' : Cache) : Prop :=
  ∀ n z a status, cache n z a = some status →
    ∃ status', cache' n z a = some status' ∧ status.serialNumber ≤ status'.serialNumber

/-- The statuses that are still there are at their serial or a later one. -/
def NoLower (cache cache' : Cache) : Prop :=
  ∀ n z a status status', cache n z a = some status → cache' n z a = some status' →
    status.serialNumber ≤ status'.serialNumber

theorem Rises.refl (cache : Cache) : Rises cache cache := fun _ _ _ status h => ⟨status, h, le_rfl⟩

theorem Rises.trans {c c' c'' : Cache} (h : Rises c c') (h' : Rises c' c'') : Rises c c'' := by
  intro n z a status hc
  obtain ⟨status', hc', hle⟩ := h n z a status hc
  obtain ⟨status'', hc'', hle'⟩ := h' n z a status' hc'
  exact ⟨status'', hc'', hle.trans hle'⟩

theorem Rises.noLower {c c' : Cache} (h : Rises c c') : NoLower c c' := by
  intro n z a status status' hc hc'
  obtain ⟨status'', hc'', hle⟩ := h n z a status hc
  cases hc'.symm.trans hc''
  exact hle

/-- The answers that still come, from the `i`-th retrieval on, find no later serial under CREATE: that is
where `NO_ZONE`, the answer to a poll for an UPDATE, is stored. -/
def Bounded (pool : Pool) (cache : Cache) (zone : Zone) (answers : ℕ → Answers) (i : ℕ) : Prop :=
  zone.action = .update → ∀ n ∈ pool.nameservers, ∀ k ≥ i, ∀ serial, answers k n = some (.noZone, serial) →
    ∀ status, cache n zone.id .create = some status → status.serialNumber ≤ serial

/-- **The answers to the polls of `update_status` lower no serial**: for an UPDATE, a nameserver's `NO_ZONE` comes
with no serial below the one cached under CREATE or an earlier such answer's. -/
structure Rising (pool : Pool) (cache : Cache) (zone : Zone) (answers : ℕ → Answers) : Prop where
  bounded : Bounded pool cache zone answers 0
  ordered : zone.action = .update → ∀ n ∈ pool.nameservers, ∀ i j serial serial', i < j →
    answers i n = some (.noZone, serial) → answers j n = some (.noZone, serial') → serial ≤ serial'

namespace Manager

variable {pool : Pool} {m : Manager} {zone : Zone} {answers : ℕ → Answers}

variable {status : PoolManagerStatus}

theorem store_rises {n z : ℕ} {a : Act}
    (h : ∀ st, m.cache n z a = some st → st.serialNumber ≤ status.serialNumber) :
    Rises m.cache (m.store n z a (some status)).cache := by
  intro n' z' a' st hc
  rw [store_cache]
  split_ifs with hk
  · obtain ⟨rfl, rfl, rfl⟩ := hk
    exact ⟨status, rfl, h st hc⟩
  · exact ⟨st, hc, le_rfl⟩

theorem cacheReport_rises (zone : Zone) (n : ℕ) (status : PollStatus) (serial : ℕ) :
    Rises m.cache (m.cacheReport zone n status serial).2.cache := by
  unfold cacheReport
  simp only
  split
  · rename_i current hc
    simp only
    split_ifs with hle
    · refine store_rises fun st hst => ?_
      cases hc.symm.trans hst
      exact hle.2
    · exact Rises.refl _
  · rename_i hc
    have hbuild : Rises m.cache ((m.report n zone.id serial).store n zone.id zone.action
        (some buildStatusObject)).cache :=
      store_rises fun st hst => by cases hc.symm.trans hst
    simp only
    split_ifs
    · refine hbuild.trans (store_rises fun st hst => ?_)
      rw [store_cache, if_pos ⟨rfl, rfl, rfl⟩] at hst
      cases Option.some.inj hst
      exact Nat.zero_le _
    · exact hbuild

theorem cacheReport_cache {a : Act} (ha : a ≠ zone.action) (n z n' : ℕ) (status : PollStatus) (serial : ℕ) :
    (m.cacheReport zone n status serial).2.cache n' z a = m.cache n' z a := by
  have hne : ∀ z' : ℕ, ¬ (n' = n ∧ z = z' ∧ a = zone.action) := fun _ h => ha h.2.2
  unfold cacheReport
  simp only
  split
  · split_ifs
    · exact if_neg (hne _)
    · rfl
  · split_ifs
    · exact (if_neg (hne _)).trans (if_neg (hne _))
    · exact if_neg (hne _)

theorem ofAnswer_act (a : Act) (answer : PollStatus × ℕ) : (ofAnswer a answer).2 = a ∨
    (a = .update ∧ answer = (.noZone, answer.2) ∧ (ofAnswer a answer).2 = .create) := by
  rcases answer with ⟨status, serial⟩
  cases status with
  | success => exact Or.inl rfl
  | error => exact Or.inl rfl
  | noZone =>
    cases a with
    | update => exact Or.inr ⟨rfl, rfl, rfl⟩
    | none => exact Or.inl rfl
    | create => exact Or.inl rfl
    | delete => exact Or.inl rfl

/-- A poll for an UPDATE that is answered `NO_ZONE` is the only one to overwrite a status. -/
theorem retrieveStatuses_rises {z : ℕ} {a : Act} {answers : Answers} {ns : List ℕ} (hd : ns.Nodup)
    (h : a = .update → ∀ n ∈ ns, ∀ serial, answers n = some (.noZone, serial) →
      ∀ status, m.cache n z .create = some status → status.serialNumber ≤ serial) :
    Rises m.cache (retrieveStatuses z a answers ns m).2.cache := by
  induction ns generalizing m with
  | nil => exact Rises.refl _
  | cons n ns ih =>
    obtain ⟨hn, hd⟩ := nodup_cons.mp hd
    have htail := fun ha n' hn' => h ha n' (mem_cons_of_mem n hn')
    unfold retrieveStatuses
    split
    · exact ih hd htail
    · rename_i hmiss
      split
      · exact ih hd htail
      · rename_i answer hans
        have hpoll : Rises m.cache (m.retrieveFromMdns n z a answer).cache := by
          refine store_rises fun st hst => ?_
          rw [ofAnswer_serialNumber]
          rcases ofAnswer_act a answer with ha | ⟨ha, hno, hcreate⟩
          · rw [ha] at hst
            cases hmiss.symm.trans hst
          · rw [hcreate] at hst
            exact h ha n mem_cons_self answer.2 (hno ▸ hans) st hst
        refine hpoll.trans (ih hd fun ha n' hn' serial hs st hst => htail ha n' hn' serial hs st ?_)
        -- the poll of another nameserver left this one's status alone
        have hne : n' ≠ n := fun he => hn (he ▸ hn')
        rwa [retrieveFromMdns, store_cache, if_neg fun hk => hne hk.1] at hst

theorem retrieveStatuses_create {z n : ℕ} {answers : Answers} {ns : List ℕ}
    (h : (retrieveStatuses z .update answers ns m).2.cache n z .create = some status) :
    m.cache n z .create = some status ∨ answers n = some (.noZone, status.serialNumber) := by
  induction ns generalizing m with
  | nil => exact Or.inl h
  | cons n' ns ih =>
    unfold retrieveStatuses at h
    split at h
    · exact ih h
    · split at h
      · exact ih h
      · rename_i answer hans
        refine (ih h).elim (fun hc => ?_) Or.inr
        rw [retrieveFromMdns, store_cache] at hc
        split_ifs at hc with hk
        · refine Or.inr ?_
          rcases ofAnswer_act .update answer with ha | ⟨-, hno, -⟩
          · exact absurd (hk.2.2.trans ha) (by decide)
          · cases Option.some.inj hc
            rw [ofAnswer_serialNumber, hk.1, hans, ← hno]
        · exact Or.inl hc

/-- The cache has only risen so far, and the answers from the `i`-th retrieval on will not lower it. -/
structure Follows (pool : Pool) (zone : Zone) (answers : ℕ → Answers) (cache : Cache) (m : Manager) (i : ℕ) : Prop where
  rises : Rises cache m.cache
  bounded : Bounded pool m.cache zone answers i

variable {cache : Cache} {i : ℕ}

theorem Follows.of_cache (h : Follows pool zone answers cache m i) {m' : Manager} (he : m'.cache = m.cache) :
    Follows pool zone answers cache m' i := ⟨he ▸ h.rises, he ▸ h.bounded⟩

theorem Follows.mono (h : Follows pool zone answers cache m i) {j : ℕ} (hij : i ≤ j) :
    Follows pool zone answers cache m j := ⟨h.rises, fun ha n hn k hk => h.bounded ha n hn k (hij.trans hk)⟩

theorem Follows.retrieveStatuses (h : Follows pool zone answers cache m i) {cache' : Cache}
    (hr : Rising pool cache' zone answers) : Follows pool zone answers cache
      (Manager.retrieveStatuses zone.id zone.action (answers i) pool.nameservers m).2 (i + 1) := by
  refine ⟨h.rises.trans (retrieveStatuses_rises pool.distinct fun ha n hn => h.bounded ha n hn i le_rfl), ?_⟩
  intro ha n hn k hk serial hs status hst
  rw [ha] at hst
  rcases retrieveStatuses_create hst with hst | hans
  · exact h.bounded ha n hn k (by omega) serial hs status hst
  · exact hr.ordered ha n hn i k status.serialNumber serial (by omega) hans hs

theorem castSuccess_cache (zone : Zone) (cacheSerial serial : ℕ) :
    (m.castSuccess zone cacheSerial serial).cache = m.cache := by
  unfold castSuccess
  split_ifs <;> rfl

theorem castNoZone_cache (zone : Zone) (status : PollStatus) : (m.castNoZone zone status).cache = m.cache := by
  unfold castNoZone
  split_ifs <;> rfl

theorem Follows.castError (h : Follows pool zone answers cache m 1) {cache' : Cache}
    (hr : Rising pool cache' zone answers) (status : PollStatus) (serial : ℕ) : Follows pool zone answers cache
      (m.castError pool zone status serial fun i => answers (i + 1)).2 3 := by
  have h2 := h.retrieveStatuses hr
  have he : Follows pool zone answers cache (m.getErrorSerial pool zone serial fun i => answers (i + 1)).2 3 := by
    unfold getErrorSerial
    simp only
    split
    · exact h2.mono (by omega)
    · exact h2.mono (by omega)
    · exact h2.retrieveStatuses hr
  unfold Manager.castError
  simp only
  split_ifs
  · split
    · exact he
    · simp only
      split_ifs
      · exact he.of_cache rfl
      · exact he
  · exact h.mono (by omega)

theorem clearCache_cache {n z z' : ℕ} {a a' : Act}
    (h : (m.clearCache pool z a).cache n z' a' = some status) : m.cache n z' a' = some status := by
  unfold clearCache at h
  revert h
  generalize pool.nameservers = ns
  intro h
  induction ns generalizing m with
  | nil => exact h
  | cons n' ns ih =>
    have hs := ih h
    rw [store_cache] at hs
    split_ifs at hs
    exact hs

theorem Follows.clearDone (h : Follows pool zone answers cache m 3) {cache' : Cache}
    (hr : Rising pool cache' zone answers) (serial : ℕ) :
    NoLower cache (m.clearDone pool zone serial (answers 3)).cache := by
  have hc := (h.retrieveStatuses hr).rises.noLower
  unfold Manager.clearDone
  simp only
  split_ifs
  · exact fun n z a status status' hst hst' => hc n z a status status' hst (clearCache_cache hst')
  · exact hc
  · exact h.rises.noLower

/-- **`update_status` lowers no cached serial where its polls' answers are rising.** -/
theorem updateStatus_noLower (h : Rising pool m.cache zone answers) (n : ℕ) (status : PollStatus) (serial : ℕ) :
    NoLower m.cache (m.updateStatus pool zone n status serial answers).cache := by
  have hreport : Follows pool zone answers m.cache (m.cacheReport zone n status serial).2 0 := by
    refine ⟨cacheReport_rises zone n status serial, fun ha n' hn' k hk s hs st hst => ?_⟩
    rw [cacheReport_cache (by rw [ha]; decide)] at hst
    exact h.bounded ha n' hn' k hk s hs st hst
  have hget := hreport.retrieveStatuses h
  unfold updateStatus
  simp only
  split
  · exact hget.rises.noLower
  · rename_i consensusSerial _
    have herror := Follows.castError (hget.of_cache (castSuccess_cache zone
      (m.cacheReport zone n status serial).1 consensusSerial)) h status consensusSerial
    split
    · exact herror.rises.noLower
    · exact Follows.clearDone (herror.of_cache (castNoZone_cache zone status)) h consensusSerial

/-- `create_zone` starts the statuses afresh: it lowers no serial where there is none. -/
theorem prepare_noLower {z : ℕ} {a : Act} (h : a = .create → ∀ n ∈ pool.nameservers, ∀ status,
    m.cache n z .create = some status → status.serialNumber = 0) : NoLower m.cache (m.prepare pool z a).cache := by
  refine Rises.noLower ?_
  unfold prepare
  revert h
  generalize pool.nameservers = ns
  intro h
  induction ns generalizing m with
  | nil => exact Rises.refl _
  | cons n ns ih =>
    rw [foldl_cons]
    split_ifs with hcond
    · refine (store_rises fun st hst => ?_).trans (ih fun ha n' hn' st hst => ?_)
      · rcases hcond with ha | hnone
        · exact (h ha n mem_cons_self st (ha ▸ hst)).le
        · cases hnone.symm.trans hst
      · rw [store_cache] at hst
        split_ifs at hst
        · cases Option.some.inj hst
          rfl
        · exact h ha n' (mem_cons_of_mem n hn') st hst
    · exact ih fun ha n' hn' => h ha n' (mem_cons_of_mem n hn')

end Manager

end Mitaka.Designate
