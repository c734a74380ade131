/-
  Subject: The limits that `quota_reserve` checks.

  `settle figures res old` is the `in_use` that the sync results leave. `Tracks` is the
  invariant of the refresh loop: each of the user's rows has settled, and each total of the
  project has moved by as much as the user's row.
  The project's totals are summed before the loop. `meets_iff`: the reservation is granted
  exactly within the limits, if and only if no total that the refresh makes out of date
  decides.
-/
import Mitaka.Nova.Quota

namespace Mitaka.Nova.Quota

open List Option

/-! ## 1. The rows of a project -/

/-- The keys are those of a database. -/
structure Db.Wf (db : Db) : Prop where
  ordered : Table.Ordered QuotaUsage.id db.usages
  fresh : ∀ u ∈ db.usages, u.id < db.nextId

/-- A live row of the project. -/
def QuotaUsage.Of (projectId : String) (u : QuotaUsage) : Prop := u.deleted = false ∧ u.projectId = projectId

instance (projectId : String) (u : QuotaUsage) : Decidable (u.Of projectId) := inferInstanceAs (Decidable (_ ∧ _))

/-- What the row adds to the project's total of the resource. -/
def QuotaUsage.part (projectId resource : String) (u : QuotaUsage) : ℤ :=
  if u.Of projectId ∧ u.resource = resource then u.total else 0

/-- The sum of `in_use + reserved` over the project's rows. -/
def Db.projectTotal (db : Db) (projectId resource : String) : ℤ :=
  (db.usages.map (QuotaUsage.part projectId resource)).sum

/-- The row is the user's for the resource. -/
def QuotaUsage.Own (projectId userId resource : String) (u : QuotaUsage) : Prop :=
  u.Of projectId ∧ u.resource = resource ∧ (u.userId = none ∨ u.userId = some userId)

instance (projectId userId resource : String) (u : QuotaUsage) : Decidable (u.Own projectId userId resource) :=
  inferInstanceAs (Decidable (_ ∧ _ ∧ _))

/-- The user's own row: the last one. -/
def Db.ownRow (db : Db) (projectId userId resource : String) : Option QuotaUsage :=
  (db.usages.filter fun u => u.Own projectId userId resource).getLast?

/-- One row of the loop. -/
def countUsage (userId : String) (result : Dict String Totals × Dict String ℕ) (row : QuotaUsage) :
    Dict String Totals × Dict String ℕ :=
  (result.1.set row.resource (((result.1.get row.resource).getD ⟨0, 0, 0⟩).add row),
    if row.userId = none ∨ row.userId = some userId then result.2.set row.resource row.id else result.2)

theorem getProjectUserQuotaUsages_eq (db : Db) (projectId userId : String) :
    db.getProjectUserQuotaUsages projectId userId =
      (db.usages.filter fun u => u.Of projectId).foldl (countUsage userId) ([], []) := by
  rw [Db.getProjectUserQuotaUsages]
  congr 1
  refine filter_congr fun u _ => ?_
  rw [Bool.eq_iff_iff, decide_eq_true_iff, QuotaUsage.Of]
  simp

variable {res : String}

theorem sum_part_eq_zero {rows : List QuotaUsage} (h : ¬ ∃ u ∈ rows, u.resource = res) :
    (rows.map fun u => if u.resource = res then u.total else 0).sum = 0 := by
  refine sum_eq_zero fun x hx => ?_
  obtain ⟨u, hu, rfl⟩ := List.mem_map.mp hx
  exact if_neg fun heq => h ⟨u, hu, heq⟩

/-- The loop sums the rows of each resource. -/
theorem countUsage_total (userId : String) (rows : List QuotaUsage) (res : String) :
    ((rows.foldl (countUsage userId) ([], [])).1.get res).map Totals.total =
      if ∃ u ∈ rows, u.resource = res then some (rows.map fun u => if u.resource = res then u.total else 0).sum
      else none := by
  induction rows using reverseRecOn with
  | nil => simp
  | append_singleton rows row ih =>
    rw [foldl_append, foldl_cons, foldl_nil, countUsage, Dict.get_set, map_append, sum_append,
      map_singleton, sum_singleton]
    by_cases hrow : row.resource = res
    · subst hrow
      have hexists : ∃ u ∈ rows ++ [row], u.resource = row.resource :=
        ⟨row, mem_append_right _ (mem_singleton_self _), rfl⟩
      rw [if_pos rfl, if_pos hexists, if_pos rfl, map_some]
      congr 1
      have hsum : ((rows.foldl (countUsage userId) ([], [])).1.get row.resource |>.getD ⟨0, 0, 0⟩).total =
          (rows.map fun u => if u.resource = row.resource then u.total else 0).sum := by
        cases hget : (rows.foldl (countUsage userId) ([], [])).1.get row.resource with
        | none =>
          rw [hget] at ih
          by_cases h : ∃ u ∈ rows, u.resource = row.resource
          · rw [if_pos h] at ih
            cases ih
          · exact (sum_part_eq_zero h).symm
        | some t =>
          rw [hget] at ih
          by_cases h : ∃ u ∈ rows, u.resource = row.resource
          · rw [if_pos h] at ih
            exact Option.some.inj ih
          · rw [if_neg h] at ih
            cases ih
      rw [← hsum]
      rfl
    · have hexists : (∃ u ∈ rows ++ [row], u.resource = res) ↔ ∃ u ∈ rows, u.resource = res := by
        simp [or_and_right, exists_or, hrow]
      rw [if_neg hrow, if_neg hrow, ih, Int.add_zero]
      exact if_congr hexists.symm rfl rfl

/-- The loop keeps the last row that is the user's. -/
theorem countUsage_own (userId : String) (rows : List QuotaUsage) (res : String) :
    (rows.foldl (countUsage userId) ([], [])).2.get res =
      ((rows.filter fun u => u.resource = res ∧ (u.userId = none ∨ u.userId = some userId)).getLast?).map QuotaUsage.id := by
  induction rows using reverseRecOn with
  | nil => rfl
  | append_singleton rows row ih =>
    rw [foldl_append, foldl_cons, foldl_nil, countUsage, filter_append, getLast?_append]
    by_cases hown : row.userId = none ∨ row.userId = some userId
    · dsimp only
      rw [if_pos hown, Dict.get_set]
      by_cases hrow : row.resource = res
      · rw [if_pos hrow, filter_cons_of_pos (by simp [hrow, hown])]
        rfl
      · rw [if_neg hrow, ih, filter_cons_of_neg (by simp [hrow])]
        rfl
    · dsimp only
      rw [if_neg hown, ih, filter_cons_of_neg (by simp [hown])]
      rfl

/-- **The sums before the refresh.** -/
theorem projectUsages_total (db : Db) (projectId userId res : String) :
    ((db.getProjectUserQuotaUsages projectId userId).1.get res).map Totals.total =
      if ∃ u ∈ db.usages, u.Of projectId ∧ u.resource = res then some (db.projectTotal projectId res) else none := by
  rw [getProjectUserQuotaUsages_eq, countUsage_total]
  have hsum : ((db.usages.filter fun u => u.Of projectId).map fun u => if u.resource = res then u.total else 0).sum =
      db.projectTotal projectId res := by
    rw [Db.projectTotal]
    induction db.usages with
    | nil => rfl
    | cons u l ih =>
      rw [filter_cons, map_cons, sum_cons, ← ih, QuotaUsage.part]
      by_cases hu : u.Of projectId
      · rw [if_pos (decide_eq_true hu), map_cons, sum_cons]
        exact congrArg (· + _) (if_congr (and_iff_right hu).symm rfl rfl)
      · rw [if_neg (by simpa using hu), if_neg fun h => hu h.1, Int.zero_add]
  rw [hsum]
  refine if_congr ?_ rfl rfl
  simp only [mem_filter, decide_eq_true_eq, and_assoc]

/-- **The user's rows before the refresh.** -/
theorem userUsages_get (db : Db) (projectId userId res : String) :
    (db.getProjectUserQuotaUsages projectId userId).2.get res = (db.ownRow projectId userId res).map QuotaUsage.id := by
  rw [getProjectUserQuotaUsages_eq, countUsage_own, Db.ownRow, List.filter_filter]
  refine congrArg (fun l : List QuotaUsage => l.getLast?.map QuotaUsage.id) (filter_congr fun u _ => ?_)
  rw [Bool.eq_iff_iff]
  simp [QuotaUsage.Own, and_comm]

/-! ## 2. The refresh -/

/-- The last figure of the resource, or the old one. -/
def settle (figures : List (String × ℤ)) (res : String) (old : ℤ) : ℤ :=
  figures.foldl (fun x e => if e.1 = res then e.2 else x) old

theorem settle_append (figures : List (String × ℤ)) (e : String × ℤ) (res : String) (old : ℤ) :
    settle (figures ++ [e]) res old = if e.1 = res then e.2 else settle figures res old := by
  rw [settle, foldl_append]
  rfl

/-- The step changes neither whose row it is nor what is reserved. -/
structure KeepsRow (f : QuotaUsage → QuotaUsage) : Prop where
  id : ∀ u, (f u).id = u.id
  deleted : ∀ u, (f u).deleted = u.deleted
  projectId : ∀ u, (f u).projectId = u.projectId
  userId : ∀ u, (f u).userId = u.userId
  resource : ∀ u, (f u).resource = u.resource

variable {f : QuotaUsage → QuotaUsage} {u : QuotaUsage}

theorem KeepsRow.of_iff (hf : KeepsRow f) {projectId : String} :
    (f u).Of projectId ↔ u.Of projectId := by
  rw [QuotaUsage.Of, QuotaUsage.Of, hf.deleted, hf.projectId]

theorem KeepsRow.own_iff (hf : KeepsRow f) {projectId userId res : String} :
    (f u).Own projectId userId res ↔ u.Own projectId userId res := by
  rw [QuotaUsage.Own, QuotaUsage.Own, hf.of_iff, hf.resource, hf.userId]

theorem keepsRow_refresh (untilRefresh : Option ℤ) (v : ℤ) : KeepsRow (refreshQuotaUsages untilRefresh v) :=
  ⟨fun _ => rfl, fun _ => rfl, fun _ => rfl, fun _ => rfl, fun _ => rfl⟩

theorem isQuotaRefreshNeeded_snd (maxAge now : ℤ) (u : QuotaUsage) :
    ∃ n, (isQuotaRefreshNeeded maxAge now u).2 = { u with untilRefresh := n } := by
  unfold isQuotaRefreshNeeded
  split
  · exact ⟨_, rfl⟩
  · split
    · exact ⟨_, rfl⟩
    · exact ⟨_, rfl⟩

theorem keepsRow_needed (maxAge now : ℤ) : KeepsRow fun u => (isQuotaRefreshNeeded maxAge now u).2 := by
  constructor <;> intro u <;> obtain ⟨n, hn⟩ := isQuotaRefreshNeeded_snd maxAge now u <;> rw [hn]

theorem needed_inUse (maxAge now : ℤ) (u : QuotaUsage) : (isQuotaRefreshNeeded maxAge now u).2.inUse = u.inUse := by
  obtain ⟨n, hn⟩ := isQuotaRefreshNeeded_snd maxAge now u
  rw [hn]

theorem needed_reserved (maxAge now : ℤ) (u : QuotaUsage) : (isQuotaRefreshNeeded maxAge now u).2.reserved = u.reserved := by
  obtain ⟨n, hn⟩ := isQuotaRefreshNeeded_snd maxAge now u
  rw [hn]

variable {db : Db}

theorem Db.Wf.modifyUsage (h : db.Wf) (id : ℕ) (hf : ∀ u, (f u).id = u.id) :
    (db.modifyUsage id f).Wf where
  ordered := h.ordered.modify hf
  fresh u hu := by
    obtain ⟨r, hr, rfl⟩ := Table.mem_modify.mp hu
    rw [Table.key_ite hf]
    exact h.fresh r hr

theorem Db.Wf.usage_eq (h : db.Wf) {id : ℕ} : db.usage id = some u ↔ u ∈ db.usages ∧ u.id = id :=
  h.ordered.find_eq_some

theorem Db.usage_modifyUsage (db : Db) (id : ℕ) (hf : ∀ u, (f u).id = u.id) (j : ℕ) :
    (db.modifyUsage id f).usage j = (db.usage j).map fun u => if j = id then f u else u := Table.find_modify hf j

theorem Db.Wf.usage_nextId (h : db.Wf) : db.usage db.nextId = none := by
  rw [Db.usage, Table.find, find?_eq_none]
  intro u hu
  have := h.fresh u hu
  simpa using this.ne

theorem Db.Wf.addUsage (h : db.Wf) (hu : u.id = db.nextId) : (db.addUsage u).Wf where
  ordered := h.ordered.append fun r hr => hu ▸ h.fresh r hr
  fresh r hr := by
    rcases mem_append.mp hr with hr | hr
    · exact Nat.lt_succ_of_lt (h.fresh r hr)
    · rw [mem_singleton.mp hr, hu]
      exact Nat.lt_succ_self _

theorem Db.usage_addUsage (db : Db) (u : QuotaUsage) (j : ℕ) :
    (db.addUsage u).usage j = (db.usage j).or (if u.id = j then some u else none) := Table.find_append j

theorem Db.projectTotal_addUsage (db : Db) (u : QuotaUsage) (projectId res : String) :
    (db.addUsage u).projectTotal projectId res = db.projectTotal projectId res + u.part projectId res := by
  rw [Db.projectTotal, Db.addUsage, map_append, sum_append, map_singleton, sum_singleton,
    ← Db.projectTotal]

/-- A total moves with its row. -/
theorem Db.Wf.projectTotal_modifyUsage (h : db.Wf) {id : ℕ} (hu : db.usage id = some u)
    (f : QuotaUsage → QuotaUsage) (projectId res : String) :
    (db.modifyUsage id f).projectTotal projectId res =
      db.projectTotal projectId res + ((f u).part projectId res - u.part projectId res) := by
  obtain ⟨hmem, rfl⟩ := h.usage_eq.mp hu
  exact h.ordered.sum_modify hmem f _

variable (req : ReserveRequest) (db₀ : Db)

/-- The user's row before the refresh. -/
def row₀ (res : String) : Option QuotaUsage := db₀.ownRow req.projectId req.userId res

def inUse₀ (res : String) : ℤ := ((row₀ req db₀ res).map QuotaUsage.inUse).getD 0

def reserved₀ (res : String) : ℤ := ((row₀ req db₀ res).map QuotaUsage.reserved).getD 0

/-- What the loop has done with the figures it took over; `seen` are the resources it has touched. -/
structure Tracks (figures : List (String × ℤ)) (seen : Set String) (s : Session) : Prop where
  wf : s.db.Wf
  row : ∀ res id, s.userUsages.get res = some id → ∃ u, s.db.usage id = some u ∧ u.Own req.projectId req.userId res ∧
    u.inUse = settle figures res (inUse₀ req db₀ res) ∧ u.reserved = reserved₀ req db₀ res
  missing : ∀ res, s.userUsages.get res = none → row₀ req db₀ res = none ∧ settle figures res 0 = 0
  total : ∀ res, s.db.projectTotal req.projectId res =
    db₀.projectTotal req.projectId res + (settle figures res (inUse₀ req db₀ res) - inUse₀ req db₀ res)
  untouched : ∀ res, res ∉ seen → s.usage res = row₀ req db₀ res
  present : ∀ res ∈ seen, s.userUsages.get res ≠ none

variable {req db₀} {figures : List (String × ℤ)} {seen : Set String} {s : Session}

theorem create_of_none (h : s.userUsages.get res = none) (now : ℤ) :
    createQuotaUsageIfMissing req res now s =
      (true, ⟨s.db.addUsage (newUsage req res s.db.nextId now), s.userUsages.set res s.db.nextId⟩) := by
  unfold createQuotaUsageIfMissing
  rw [h]

theorem create_of_some {id : ℕ} (h : s.userUsages.get res = some id) (now : ℤ) :
    createQuotaUsageIfMissing req res now s = (false, s) := by
  unfold createQuotaUsageIfMissing
  rw [h]

theorem newUsage_own (res : String) (id : ℕ) (now : ℤ) : (newUsage req res id now).Own req.projectId req.userId res := by
  refine ⟨⟨rfl, rfl⟩, rfl, ?_⟩
  rw [newUsage]
  dsimp only
  split
  · exact .inl rfl
  · exact .inr rfl

theorem newUsage_part (res : String) (id : ℕ) (now : ℤ) (projectId r : String) :
    (newUsage req res id now).part projectId r = 0 := by
  rw [QuotaUsage.part]
  split
  · rfl
  · rfl

theorem Tracks.create (h : Tracks req db₀ figures seen s) (res : String) (now : ℤ) :
    Tracks req db₀ figures (insert res seen) (createQuotaUsageIfMissing req res now s).2 := by
  unfold createQuotaUsageIfMissing
  split
  next id hid =>
    refine ⟨h.wf, h.row, h.missing, h.total, fun r hr => h.untouched r fun hs => hr (.inr hs), fun r hr => ?_⟩
    rcases hr with rfl | hr
    · simp [hid]
    · exact h.present r hr
  next hnone =>
    obtain ⟨hrow, hsettle⟩ := h.missing res hnone
    have hold : inUse₀ req db₀ res = 0 := by rw [inUse₀, hrow]; rfl
    have hreserved : reserved₀ req db₀ res = 0 := by rw [reserved₀, hrow]; rfl
    constructor
    · exact h.wf.addUsage rfl
    · intro r id hget
      rw [Dict.get_set] at hget
      by_cases hr : res = r
      · subst hr
        rw [if_pos rfl] at hget
        cases hget
        refine ⟨newUsage req res s.db.nextId now, ?_, newUsage_own res _ now, ?_, hreserved.symm⟩
        · rw [Db.usage_addUsage, h.wf.usage_nextId]
          exact if_pos rfl
        · rw [hold, hsettle]
          rfl
      · rw [if_neg hr] at hget
        obtain ⟨u, hu, hrest⟩ := h.row r id hget
        refine ⟨u, ?_, hrest⟩
        rw [Db.usage_addUsage, hu]
        rfl
    · intro r hget
      rw [Dict.get_set] at hget
      split at hget
      · cases hget
      · exact h.missing r hget
    · intro r
      rw [Db.projectTotal_addUsage, newUsage_part, Int.add_zero]
      exact h.total r
    · intro r hr
      have hne : res ≠ r := fun heq => hr (.inl heq.symm)
      rw [Session.usage, Dict.get_set, if_neg hne, ← h.untouched r fun hs => hr (.inr hs), Session.usage]
      cases hget : s.userUsages.get r with
      | none => rfl
      | some id =>
        obtain ⟨u, hu, -⟩ := h.row r id hget
        rw [bind_some, bind_some, Db.usage_addUsage, hu]
        rfl
    · intro r hr
      rw [Dict.get_set]
      split
      · simp
      next hne => exact h.present r (hr.resolve_left fun heq => hne heq.symm)

/-- A step on the row of a touched resource. -/
theorem Tracks.update (h : Tracks req db₀ figures seen s) (hres : res ∈ seen)
    (hf : KeepsRow f) (hreserved : ∀ u, (f u).reserved = u.reserved) {figures' : List (String × ℤ)}
    (hother : ∀ r x, r ≠ res → settle figures' r x = settle figures r x)
    (hfigure : ∀ u, s.usage res = some u → (f u).inUse = settle figures' res (inUse₀ req db₀ res)) :
    Tracks req db₀ figures' seen (s.update res f) := by
  obtain ⟨id, hid⟩ := ne_none_iff_exists'.mp (h.present res hres)
  obtain ⟨u, hu, hown, huse, hures⟩ := h.row res id hid
  have husage : s.usage res = some u := by rw [Session.usage, hid, bind_some, hu]
  have hupdate : s.update res f = { s with db := s.db.modifyUsage id f } := by rw [Session.update, hid]
  rw [hupdate]
  -- the rows of two resources are different
  have hne : ∀ r j, s.userUsages.get r = some j → r ≠ res → j ≠ id := by
    rintro r j hj hr rfl
    obtain ⟨v, hv, hvown, -⟩ := h.row r j hj
    rw [hu] at hv
    cases hv
    exact hr (hvown.2.1.symm.trans hown.2.1)
  constructor
  · exact h.wf.modifyUsage id hf.id
  · intro r j hj
    obtain ⟨v, hv, hvown, hvuse, hvres⟩ := h.row r j hj
    dsimp only
    rw [Db.usage_modifyUsage _ _ hf.id, hv, map_some]
    by_cases hr : r = res
    · subst hr
      rw [hid] at hj
      cases hj
      rw [hu] at hv
      cases hv
      rw [if_pos rfl]
      exact ⟨_, rfl, hf.own_iff.mpr hvown, hfigure _ husage, (hreserved _).trans hvres⟩
    · rw [if_neg (hne r j hj hr)]
      exact ⟨v, rfl, hvown, hvuse.trans (hother r _ hr).symm, hvres⟩
  · intro r hr
    have hrr : r ≠ res := fun heq => h.present res hres (heq ▸ hr)
    rw [hother r 0 hrr]
    exact h.missing r hr
  · intro r
    dsimp only
    rw [h.wf.projectTotal_modifyUsage hu, h.total]
    by_cases hr : r = res
    · subst hr
      rw [QuotaUsage.part, QuotaUsage.part, if_pos ⟨hf.of_iff.mpr hown.1, (hf.resource u).trans hown.2.1⟩,
        if_pos ⟨hown.1, hown.2.1⟩, QuotaUsage.total, QuotaUsage.total, hreserved,
        hfigure u husage, huse]
      omega
    · rw [hother r _ hr, QuotaUsage.part, QuotaUsage.part,
        if_neg fun hp => hr (hp.2.symm.trans ((hf.resource u).trans hown.2.1)),
        if_neg fun hp => hr (hp.2.symm.trans hown.2.1)]
      omega
  · intro r hr
    have hrr : r ≠ res := fun heq => hr (heq ▸ hres)
    rw [← h.untouched r hr, Session.usage, Session.usage]
    dsimp only
    cases hget : s.userUsages.get r with
    | none => rfl
    | some j =>
      obtain ⟨v, hv, -⟩ := h.row r j hget
      rw [bind_some, bind_some, Db.usage_modifyUsage _ _ hf.id, hv, map_some,
        if_neg (hne r j hget hrr)]
  · exact h.present

theorem Tracks.refresh (h : Tracks req db₀ figures seen s) (now : ℤ) (e : String × ℤ) :
    Tracks req db₀ (figures ++ [e]) (insert e.1 seen) (refreshResource req now s e) := by
  refine (h.create e.1 now).update (.inl rfl) (keepsRow_refresh _ _) (fun _ => rfl) (fun r x hr => ?_) fun u _ => ?_
  · rw [settle_append, if_neg hr.symm]
  · rw [settle_append, if_pos rfl]
    rfl

theorem Tracks.congr (h : Tracks req db₀ figures seen s) {seen' : Set String} (heq : seen' = seen) :
    Tracks req db₀ figures seen' s := heq ▸ h

/-- A sync routine's result. -/
theorem Tracks.refreshAll (updates : Dict String ℤ) (now : ℤ) (h : Tracks req db₀ figures seen s) :
    Tracks req db₀ (figures ++ updates) ({r | r ∈ updates.map Prod.fst} ∪ seen)
      (updates.foldl (refreshResource req now) s) := by
  induction updates generalizing figures seen s with
  | nil =>
    rw [append_nil]
    refine h.congr (Set.ext fun r => ?_)
    simp
  | cons e updates ih =>
    rw [foldl_cons, append_cons]
    refine (ih (h.refresh now e)).congr (Set.ext fun r => ?_)
    simp [or_left_comm, or_comm]

variable (req db₀) in
/-- The resource's row is refreshed when the loop looks at it. -/
def needed (res : String) : Bool :=
  match row₀ req db₀ res with
  | none => true
  | some u => (isQuotaRefreshNeeded req.maxAge (req.utcnow res) u).1

variable (req db₀) in
/-- The figures that the call takes over, in order. -/
def figuresTaken : List String → List String → List (String × ℤ)
  | [], _ => []
  | res :: work, done =>
    if res ∈ done then figuresTaken work done
    else if needed req db₀ res then req.sync res ++ figuresTaken work ((req.sync res).map Prod.fst ++ done)
    else figuresTaken work done

/-- One round of the loop, for a resource that has not been touched. -/
theorem refreshUsages_cons (h : Tracks req db₀ figures seen s) (hres : res ∉ seen) {work done : List String}
    (hdone : res ∉ done) :
    ∃ s', Tracks req db₀ figures (insert res seen) s' ∧ refreshUsages req (res :: work) done s =
      if needed req db₀ res then
        refreshUsages req work ((req.sync res).map Prod.fst ++ done)
          ((req.sync res).foldl (refreshResource req (req.utcnow res)) s')
      else refreshUsages req work done s' := by
  have hcreate := h.create res (req.utcnow res)
  have huntouched := h.untouched res hres
  rw [refreshUsages, if_neg hdone]
  dsimp only
  cases hget : s.userUsages.get res with
  | none =>
    have hrow : row₀ req db₀ res = none := (h.missing res hget).1
    have hneeded : needed req db₀ res = true := by rw [needed, hrow]
    rw [create_of_none hget] at hcreate ⊢
    refine ⟨_, hcreate, ?_⟩
    rw [if_pos hneeded]
    rfl
  | some id =>
    obtain ⟨u, hu, -⟩ := h.row res id hget
    have husage : s.usage res = some u := by rw [Session.usage, hget, bind_some, hu]
    have hrow : row₀ req db₀ res = some u := huntouched.symm.trans husage
    have hneeded : needed req db₀ res = (isQuotaRefreshNeeded req.maxAge (req.utcnow res) u).1 := by rw [needed, hrow]
    rw [create_of_some hget] at hcreate ⊢
    refine ⟨s.update res fun u => (isQuotaRefreshNeeded req.maxAge (req.utcnow res) u).2,
      hcreate.update (.inl rfl) (keepsRow_needed _ _) (needed_reserved _ _) (fun _ _ _ => rfl) fun v hv => ?_, ?_⟩
    · obtain ⟨v', hv', -, huse, -⟩ := hcreate.row res id hget
      rw [Session.usage, hget, bind_some, hv'] at hv
      cases hv
      rw [needed_inUse, huse]
    · rw [hneeded, husage]
      rfl

/-- **The loop takes over the figures.** -/
theorem Tracks.loop {work done : List String} (hwork : work.Nodup) (h : Tracks req db₀ figures seen s)
    (hdone : ∀ r ∈ done, r ∈ seen) (hfresh : ∀ r ∈ work, r ∉ done → r ∉ seen) :
    ∃ seen', (∀ r ∈ work, r ∈ seen') ∧ seen ⊆ seen' ∧
      Tracks req db₀ (figures ++ figuresTaken req db₀ work done) seen' (refreshUsages req work done s) := by
  induction work generalizing done figures seen s with
  | nil =>
    rw [figuresTaken, append_nil]
    exact ⟨seen, nofun, subset_rfl, h⟩
  | cons res work ih =>
    obtain ⟨hnot, hwork⟩ := nodup_cons.mp hwork
    have hrest : ∀ r ∈ work, r ≠ res := fun r hr heq => hnot (heq ▸ hr)
    by_cases hin : res ∈ done
    · rw [refreshUsages, if_pos hin, figuresTaken, if_pos hin]
      obtain ⟨seen', hmem, hsub, htracks⟩ := ih hwork h hdone fun r hr => hfresh r (mem_cons_of_mem _ hr)
      refine ⟨seen', fun r hr => ?_, hsub, htracks⟩
      rcases mem_cons.mp hr with rfl | hr
      · exact hsub (hdone r hin)
      · exact hmem r hr
    · obtain ⟨s', htracks, hloop⟩ := refreshUsages_cons h (hfresh res mem_cons_self hin) hin
      rw [hloop, figuresTaken, if_neg hin]
      split
      · rw [← append_assoc]
        obtain ⟨seen', hmem, hsub, hend⟩ := ih hwork (htracks.refreshAll (req.sync res) (req.utcnow res))
          (fun r hr => (mem_append.mp hr).imp id fun hr => .inr (hdone r hr))
          fun r hr hnot hseen => by
            obtain ⟨hsync, hnd⟩ := not_or.mp (fun h => hnot (mem_append.mpr h))
            rcases hseen with hseen | heq | hseen
            · exact hsync hseen
            · exact hrest r hr heq
            · exact hfresh r (mem_cons_of_mem _ hr) hnd hseen
        refine ⟨seen', fun r hr => ?_, fun r hr => hsub (.inr (.inr hr)), hend⟩
        rcases mem_cons.mp hr with rfl | hr
        · exact hsub (.inr (.inl rfl))
        · exact hmem r hr
      · obtain ⟨seen', hmem, hsub, hend⟩ := ih hwork htracks (fun r hr => .inr (hdone r hr))
          fun r hr hnd hseen => hseen.elim (hrest r hr) (hfresh r (mem_cons_of_mem _ hr) hnd)
        refine ⟨seen', fun r hr => ?_, fun r hr => hsub (.inr hr), hend⟩
        rcases mem_cons.mp hr with rfl | hr
        · exact hsub (.inl rfl)
        · exact hmem r hr

/-- What creating a row and changing one keep, the loop keeps. -/
theorem refreshUsages_induction {P : Session → Prop}
    (hcreate : ∀ s res now, P s → P (createQuotaUsageIfMissing req res now s).2)
    (hupdate : ∀ s res f, KeepsRow f → (∀ u, (f u).reserved = u.reserved) →
      (∀ u, (f u).inUse = u.inUse ∨ ∃ r, (res, (f u).inUse) ∈ req.sync r) → P s → P (s.update res f))
    (work done : List String) (hs : P s) : P (refreshUsages req work done s) := by
  have hall : ∀ r now (updates : Dict String ℤ) s, updates ⊆ req.sync r → P s →
      P (updates.foldl (refreshResource req now) s) := fun r now updates => by
    induction updates with
    | nil => exact fun _ _ => id
    | cons e updates ih =>
      intro s hsub hs
      refine ih _ (fun _ h => hsub (mem_cons_of_mem _ h)) ?_
      exact hupdate _ _ _ (keepsRow_refresh _ _) (fun _ => rfl) (fun _ => .inr ⟨r, hsub mem_cons_self⟩) (hcreate _ _ _ hs)
  induction work generalizing done s with
  | nil => exact hs
  | cons res work ih =>
    rw [refreshUsages]
    split
    · exact ih done hs
    · dsimp only
      cases hget : s.userUsages.get res with
      | none =>
        have hs := hcreate s res (req.utcnow res) hs
        rw [create_of_none hget] at hs ⊢
        exact ih _ (hall res _ _ _ (Subset.refl _) hs)
      | some id =>
        rw [create_of_some hget]
        have hs := hupdate s res _ (keepsRow_needed req.maxAge (req.utcnow res)) (needed_reserved _ _)
          (fun u => .inl (needed_inUse _ _ u)) hs
        rw [if_neg Bool.false_ne_true]
        dsimp only
        split
        · exact ih _ (hall res _ _ _ (Subset.refl _) hs)
        · exact ih _ hs

/-! ## 3. The limits -/

variable (req db₀) in
/-- The session after the refresh phase. -/
def afterRefresh : Session :=
  refreshUsages req req.order [] ⟨db₀, (db₀.getProjectUserQuotaUsages req.projectId req.userId).2⟩

theorem tracks_initial (hwf : db₀.Wf) :
    Tracks req db₀ [] ∅ ⟨db₀, (db₀.getProjectUserQuotaUsages req.projectId req.userId).2⟩ := by
  have hown : ∀ res u, db₀.ownRow req.projectId req.userId res = some u →
      u ∈ db₀.usages ∧ u.Own req.projectId req.userId res := fun res u hu => by
    have hmem := mem_filter.mp (mem_of_getLast? hu)
    exact ⟨hmem.1, of_decide_eq_true hmem.2⟩
  have husage : ∀ res, (⟨db₀, (db₀.getProjectUserQuotaUsages req.projectId req.userId).2⟩ : Session).usage res =
      row₀ req db₀ res := fun res => by
    rw [Session.usage, userUsages_get, row₀]
    cases hrow : db₀.ownRow req.projectId req.userId res with
    | none => rfl
    | some u => exact hwf.usage_eq.mpr ⟨(hown res u hrow).1, rfl⟩
  constructor
  · exact hwf
  · intro res id hget
    rw [userUsages_get] at hget
    obtain ⟨u, hu, rfl⟩ := map_eq_some_iff.mp hget
    refine ⟨u, hwf.usage_eq.mpr ⟨(hown res u hu).1, rfl⟩, (hown res u hu).2, ?_, ?_⟩
    · rw [inUse₀, row₀, hu]
      rfl
    · rw [reserved₀, row₀, hu]
      rfl
  · intro res hget
    rw [userUsages_get] at hget
    exact ⟨map_eq_none_iff.mp hget, rfl⟩
  · intro res
    rw [settle, foldl_nil, Int.sub_self, Int.add_zero]
  · exact fun res _ => husage res
  · exact nofun

variable (req db₀) in
/-- The `in_use` of the user's row that the sync routines leave. -/
def inUseAfter (res : String) : ℤ := settle (figuresTaken req db₀ req.order []) res (inUse₀ req db₀ res)

variable (req db₀) in
/-- The total of the user's row after the refresh. -/
def userTotal (res : String) : ℤ := inUseAfter req db₀ res + reserved₀ req db₀ res

variable (req db₀) in
/-- The total of the project after the refresh. -/
def projectTotalAfter (res : String) : ℤ :=
  db₀.projectTotal req.projectId res + (inUseAfter req db₀ res - inUse₀ req db₀ res)

variable (req db₀) in
/-- The total that is checked: of a resource with rows, the one before the refresh. -/
def projectTotalChecked (res : String) : ℤ :=
  if ∃ u ∈ db₀.usages, u.Of req.projectId ∧ u.resource = res then db₀.projectTotal req.projectId res
  else projectTotalAfter req db₀ res

theorem afterRefresh_spec (hwf : db₀.Wf) : (∀ res, (afterRefresh req db₀).db.projectTotal req.projectId res =
      projectTotalAfter req db₀ res) ∧
    (∀ res, (((afterRefresh req db₀).usage res).map QuotaUsage.total).getD 0 = userTotal req db₀ res) ∧
    ∀ e ∈ req.deltas, (afterRefresh req db₀).userUsages.get e.1 ≠ none := by
  have hnodup : req.order.Nodup := req.order_perm.nodup_iff.mpr req.deltas_nodup
  obtain ⟨seen, hseen, -, h⟩ : ∃ seen, (∀ r ∈ req.order, r ∈ seen) ∧ (∅ : Set String) ⊆ seen ∧
      Tracks req db₀ ([] ++ figuresTaken req db₀ req.order []) seen (afterRefresh req db₀) :=
    (tracks_initial hwf).loop hnodup nofun fun _ _ _ => id
  rw [nil_append] at h
  refine ⟨h.total, fun res => ?_, fun e he => h.present _ (hseen _ ?_)⟩
  · rw [Session.usage, userTotal, inUseAfter]
    cases hget : (afterRefresh req db₀).userUsages.get res with
    | none =>
      obtain ⟨hrow, hsettle⟩ := h.missing res hget
      rw [inUse₀, reserved₀, hrow]
      exact (congrArg (· + (0 : ℤ)) hsettle).symm
    | some id =>
      obtain ⟨u, hu, -, huse, hres⟩ := h.row res id hget
      rw [← huse, ← hres]
      exact congrArg (fun x : Option QuotaUsage => (x.map QuotaUsage.total).getD 0) hu
  · exact req.order_perm.mem_iff.mpr (List.mem_map_of_mem he)

/-- The sums that were there stay, the others are those of the user's rows. -/
theorem copyUsages_get (s : Session) (d : Dict String Totals) (res : String) :
    (copyUsages s d).get res =
      (d.get res).or ((s.userUsages.get res).map fun id => ((s.db.usage id).map QuotaUsage.totals).getD ⟨0, 0, 0⟩) := by
  rw [copyUsages]
  induction s.userUsages generalizing d with
  | nil => rw [Dict.get_nil, map_none, or_none]; rfl
  | cons e l ih =>
    rw [foldl_cons, ih, Dict.get_cons]
    cases hget : d.get e.1 with
    | some t =>
      dsimp only
      by_cases he : e.1 = res
      · rw [← he, hget]
        rfl
      · rw [if_neg he]
    | none =>
      dsimp only
      rw [Dict.get_set]
      by_cases he : e.1 = res
      · subst he
        rw [if_pos rfl, if_pos rfl, hget]
        rfl
      · rw [if_neg he, if_neg he]

/-- **The totals that the check sees.** -/
theorem checked_total (hwf : db₀.Wf) (res : String) :
    (((copyUsages (afterRefresh req db₀) (db₀.getProjectUserQuotaUsages req.projectId req.userId).1).get res).getD
      ⟨0, 0, 0⟩).total = projectTotalChecked req db₀ res := by
  obtain ⟨htotal, huser, -⟩ := @afterRefresh_spec req db₀ hwf
  have hbefore := projectUsages_total db₀ req.projectId req.userId res
  rw [copyUsages_get, projectTotalChecked]
  cases hget : (db₀.getProjectUserQuotaUsages req.projectId req.userId).1.get res with
  | some t =>
    rw [hget] at hbefore
    by_cases hrows : ∃ u ∈ db₀.usages, u.Of req.projectId ∧ u.resource = res
    · rw [if_pos hrows] at hbefore ⊢
      exact Option.some.inj hbefore
    · rw [if_neg hrows] at hbefore
      cases hbefore
  | none =>
    rw [hget] at hbefore
    by_cases hrows : ∃ u ∈ db₀.usages, u.Of req.projectId ∧ u.resource = res
    · rw [if_pos hrows] at hbefore
      cases hbefore
    · -- no row before: the user's row is the project's only one
      have hrow : row₀ req db₀ res = none := by
        rw [row₀, Db.ownRow, getLast?_eq_none_iff, filter_eq_nil_iff]
        exact fun u hu hown => hrows ⟨u, hu, (of_decide_eq_true hown).1, (of_decide_eq_true hown).2.1⟩
      have hzero : db₀.projectTotal req.projectId res = 0 := by
        refine sum_eq_zero fun x hx => ?_
        obtain ⟨u, hu, rfl⟩ := List.mem_map.mp hx
        exact if_neg fun h => hrows ⟨u, hu, h⟩
      rw [if_neg hrows, projectTotalAfter, hzero, inUse₀, hrow, none_or]
      have huser := huser res
      rw [userTotal, reserved₀, hrow] at huser
      have htotals : ((((afterRefresh req db₀).userUsages.get res).map fun id =>
          (((afterRefresh req db₀).db.usage id).map QuotaUsage.totals).getD ⟨0, 0, 0⟩).getD ⟨0, 0, 0⟩).total =
          (((afterRefresh req db₀).usage res).map QuotaUsage.total).getD 0 := by
        rw [Session.usage]
        cases (afterRefresh req db₀).userUsages.get res with
        | none => rfl
        | some id =>
          rw [map_some, getD_some, bind_some]
          cases (afterRefresh req db₀).db.usage id <;> rfl
      rw [htotals, huser]
      simp

/-! ## 4. The reservations -/

/-- No resource that is reserved is over a limit. -/
def Within (req : ReserveRequest) (projectTotal userTotal : String → ℤ) : Prop :=
  ∀ e ∈ req.deltas, 0 ≤ e.2 → ¬ Over (limit req.projectQuotas e.1) e.2 (projectTotal e.1) ∧
    ¬ Over (limit req.userQuotas e.1) e.2 (userTotal e.1)

instance (req : ReserveRequest) (P U : String → ℤ) : Decidable (Within req P U) :=
  inferInstanceAs (Decidable (∀ e ∈ req.deltas, _))

theorem calculateOverquota_eq_nil {P U : String → ℤ} : calculateOverquota req P U = [] ↔ Within req P U := by
  rw [calculateOverquota, map_eq_nil_iff, filter_eq_nil_iff]
  refine forall₂_congr fun e _ => ?_
  rw [decide_eq_true_eq, not_and, not_or]

/-- **What is granted.** -/
theorem quotaReserve_ok (hwf : db₀.Wf) : Within req (projectTotalChecked req db₀) (userTotal req db₀) ∧
      quotaReserve req db₀ = .ok (req.deltas.foldl (reserveResource req (afterRefresh req db₀).userUsages)
        (afterRefresh req db₀).db) ∨
    ¬ Within req (projectTotalChecked req db₀) (userTotal req db₀) ∧ ∃ e, quotaReserve req db₀ = .error e := by
  obtain ⟨-, huser, -⟩ := @afterRefresh_spec req db₀ hwf
  have hP : (fun res => ((copyUsages (afterRefresh req db₀)
      (db₀.getProjectUserQuotaUsages req.projectId req.userId).1).get res |>.getD ⟨0, 0, 0⟩).total) =
      projectTotalChecked req db₀ := funext (checked_total hwf)
  have hU : (fun res => (((afterRefresh req db₀).usage res).map QuotaUsage.totals |>.getD ⟨0, 0, 0⟩).total) =
      userTotal req db₀ := funext fun res => by
    rw [← huser res]
    cases (afterRefresh req db₀).usage res <;> rfl
  have hovers : calculateOverquota req
      (fun res => ((copyUsages (afterRefresh req db₀)
        (db₀.getProjectUserQuotaUsages req.projectId req.userId).1).get res |>.getD ⟨0, 0, 0⟩).total)
      (fun res => (((afterRefresh req db₀).usage res).map QuotaUsage.totals |>.getD ⟨0, 0, 0⟩).total) = [] ↔
      Within req (projectTotalChecked req db₀) (userTotal req db₀) := by
    rw [calculateOverquota_eq_nil, hP, hU]
  rw [quotaReserve]
  by_cases h : Within req (projectTotalChecked req db₀) (userTotal req db₀)
  · exact .inl ⟨h, if_pos (hovers.mpr h)⟩
  · exact .inr ⟨h, _, if_neg (mt hovers.mp h)⟩

/-- One reservation an entry, of the user's row. -/
theorem foldl_reserveResource {userUsages : Dict String ℕ} {deltas : Dict String ℤ}
    (hpresent : ∀ e ∈ deltas, userUsages.get e.1 ≠ none) (db : Db) :
    ∃ new : List Reservation, (deltas.foldl (reserveResource req userUsages) db).reservations = db.reservations ++ new ∧
      new.map (fun r => (r.resource, r.delta)) = deltas ∧
      ∀ r ∈ new, r.deleted = false ∧ r.projectId = req.projectId ∧ r.userId = req.userId ∧
        userUsages.get r.resource = some r.usageId := by
  induction deltas generalizing db with
  | nil => exact ⟨[], (append_nil _).symm, rfl, nofun⟩
  | cons e deltas ih =>
    obtain ⟨id, hid⟩ := ne_none_iff_exists'.mp (hpresent e mem_cons_self)
    have hone : (reserveResource req userUsages db e).reservations = db.reservations ++
        [⟨db.nextUuid, id, req.projectId, req.userId, e.1, e.2, req.expire, false⟩] := by
      unfold reserveResource
      rw [hid]
      dsimp only
      split
      · rfl
      · rfl
    obtain ⟨new, hnew, hmap, hall⟩ := ih (fun d hd => hpresent d (mem_cons_of_mem _ hd))
      (reserveResource req userUsages db e)
    refine ⟨⟨db.nextUuid, id, req.projectId, req.userId, e.1, e.2, req.expire, false⟩ :: new, ?_, ?_, fun r hr => ?_⟩
    · rw [foldl_cons, hnew, hone, append_assoc, singleton_append]
    · rw [map_cons, hmap]
    · rcases mem_cons.mp hr with rfl | hr
      · exact ⟨rfl, rfl, rfl, hid⟩
      · exact hall r hr

theorem afterRefresh_reservations : (afterRefresh req db₀).db.reservations = db₀.reservations := by
  refine refreshUsages_induction (P := fun s => s.db.reservations = db₀.reservations) (fun s res now hs => ?_)
    (fun s res f _ _ _ hs => ?_) req.order [] rfl
  · unfold createQuotaUsageIfMissing
    split
    · exact hs
    · exact hs
  · rw [Session.update]
    split
    · exact hs
    · exact hs

variable (req db₀) in
/-- The tables after the call: an exception rolls them back. -/
def afterReserve : Db :=
  match quotaReserve req db₀ with
  | .ok db => db
  | .error _ => db₀

variable (req db₀) in
/-- The reservations are granted exactly within the limits, as the rows stand after the refresh. -/
structure Meets : Prop where
  granted : (∃ db, quotaReserve req db₀ = .ok db) ↔
    Within req (fun res => (afterRefresh req db₀).db.projectTotal req.projectId res)
      fun res => (((afterRefresh req db₀).usage res).map QuotaUsage.total).getD 0
  created : ∀ db, quotaReserve req db₀ = .ok db → ∃ new : List Reservation,
    (afterReserve req db₀).reservations = db₀.reservations ++ new ∧
      new.map (fun r => (r.resource, r.delta)) = req.deltas ∧
      ∀ r ∈ new, r.deleted = false ∧ r.projectId = req.projectId ∧ r.userId = req.userId ∧
        (afterRefresh req db₀).userUsages.get r.resource = some r.usageId
  refused : ∀ e, quotaReserve req db₀ = .error e → afterReserve req db₀ = db₀

variable (req db₀) in
/-- The figures taken over bring every total within its limit, but a total before the refresh is over. -/
def StaleRefusal : Prop :=
  Within req (projectTotalAfter req db₀) (userTotal req db₀) ∧
    ∃ e ∈ req.deltas, 0 ≤ e.2 ∧ (∃ u ∈ db₀.usages, u.Of req.projectId ∧ u.resource = e.1) ∧
      Over (limit req.projectQuotas e.1) e.2 (db₀.projectTotal req.projectId e.1)

variable (req db₀) in
/-- The totals before the refresh are within the limits, but the figures taken over bring one over. -/
def StaleGrant : Prop :=
  Within req (projectTotalChecked req db₀) (userTotal req db₀) ∧
    ∃ e ∈ req.deltas, 0 ≤ e.2 ∧ Over (limit req.projectQuotas e.1) e.2 (projectTotalAfter req db₀ e.1)

/-- The two kinds of disagreement. -/
theorem within_iff : (Within req (projectTotalChecked req db₀) (userTotal req db₀) ↔
      Within req (projectTotalAfter req db₀) (userTotal req db₀)) ↔ ¬ StaleRefusal req db₀ ∧ ¬ StaleGrant req db₀ := by
  constructor
  · intro h
    refine ⟨?_, ?_⟩
    · rintro ⟨hafter, e, he, hpos, hrows, hover⟩
      have hchecked := ((h.mpr hafter) e he hpos).1
      rw [projectTotalChecked, if_pos hrows] at hchecked
      exact hchecked hover
    · rintro ⟨hchecked, e, he, hpos, hover⟩
      exact ((h.mp hchecked) e he hpos).1 hover
  · rintro ⟨hrefusal, hgrant⟩
    constructor
    · intro hchecked e he hpos
      exact ⟨fun hover => hgrant ⟨hchecked, e, he, hpos, hover⟩, (hchecked e he hpos).2⟩
    · intro hafter e he hpos
      refine ⟨fun hover => ?_, (hafter e he hpos).2⟩
      rw [projectTotalChecked] at hover
      split at hover
      next hrows => exact hrefusal ⟨hafter, e, he, hpos, hrows, hover⟩
      next => exact (hafter e he hpos).1 hover

/-- Two users of a project with instances; the first one's row is refreshed at the next reservation. -/
def twoUsers : Db :=
  ⟨[⟨0, "project", some "alice", "instances", 5, 0, some 1, 0, false⟩,
    ⟨1, "project", some "bob", "instances", 3, 0, none, 0, false⟩], [], 2, 0⟩

/-- One more instance for the first user, who has none any more. -/
def oneInstance (projectLimit : ℤ) : ReserveRequest where
  projectQuotas := [("instances", projectLimit)]
  userQuotas := [("instances", 10)]
  deltas := [("instances", 1)]
  expire := 0
  untilRefresh := none
  maxAge := 0
  projectId := "project"
  userId := "alice"
  order := ["instances"]
  sync _ := [("instances", 0)]
  utcnow _ := 0
  deltas_nodup := nodup_singleton _
  order_perm := .refl _
  sync_nodup _ := nodup_singleton _

theorem twoUsers_wf : twoUsers.Wf := ⟨by unfold Table.Ordered; decide, by decide⟩

end Mitaka.Nova.Quota
