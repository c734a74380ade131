/-
  Subject: Runs of the resource manager.

  * **`project_tree`** -- on every run whose updates neither move a project to another domain
    nor cascade without the attribute `enabled`, the tree is as it should be and an update
    that does not mention `enabled` leaves every flag.
  * `project_tree_fails` -- the two updates that are left out.
-/
import Mitaka.Lib.Run
import Mitaka.Keystone.ResourceTree

namespace Mitaka.Keystone.Resource

open Fallible

variable {env : Env} {db db' : Db} {depth : ℕ} {p q original : Project} {projectId : ℕ} {u : Update} {cascade : Bool}

/-! ## 1. Creating -/

theorem getDomain_eq_ok (h : (db.map Project.id).Nodup) {x : Option ℕ} :
    getDomain db x = .ok p ↔ (p ∈ db ∧ x = some p.id) ∧ p.isDomain = true := by
  rw [← getProject?_eq_ok h, getDomain]
  cases hx : getProject? db x with
  | error e => exact ⟨nofun, fun h => nomatch h.1⟩
  | ok q =>
    dsimp only
    rw [ite_error_eq_ok, Except.ok.injEq, and_comm]
    refine and_congr_right ?_
    rintro rfl
    rfl

/-- What a new regular project is under. -/
theorem regular_of_enforce (h : Inv env.maxProjectTreeDepth db) (hregular : p.isDomain = false)
    (hok : enforceProjectConstraints env db p = .ok ()) :
    ∃ q ∈ db, p.parentId = some q.id ∧ q.enabled = true ∧
      ∃ d n, Reaches db q d n ∧ n + 1 ≤ env.maxProjectTreeDepth ∧ p.domainId = some d := by
  rw [enforceProjectConstraints, if_neg (by rw [hregular]; exact Bool.false_ne_true), bind_eq_ok] at hok
  obtain ⟨⟨⟩, hconstraints, hok⟩ := hok
  rw [bind_eq_ok] at hok
  obtain ⟨q, hq, hok⟩ := hok
  rw [bind_eq_ok] at hok
  obtain ⟨parents, hparents, hok⟩ := hok
  obtain ⟨hqin, hparent⟩ := (getProject?_eq_ok h.nodup).mp hq
  rw [error_ite_eq_ok, error_ite_eq_ok] at hok
  obtain ⟨henabled, hdepth, -⟩ := hok
  refine ⟨q, hqin, hparent, ?_, ?_⟩
  · exact Bool.eq_true_of_not_eq_false fun hfalse => henabled ⟨q, List.mem_append_right _ (List.mem_singleton_self q), hfalse⟩
  · rw [assertRegularProjectConstraints, bind_eq_ok] at hconstraints
    obtain ⟨domain, hdomain, hconstraints⟩ := hconstraints
    rw [bind_eq_ok] at hconstraints
    obtain ⟨q', hq', hconstraints⟩ := hconstraints
    rw [hq] at hq'
    cases hq'
    obtain ⟨⟨hdin, hdid⟩, hdisdomain⟩ := (getDomain_eq_ok h.nodup).mp hdomain
    have hlength : ∀ {d n}, Reaches db q d n → n + 1 ≤ env.maxProjectTreeDepth := fun hreaches => by
      have := listProjectParents_length h hqin hparents hreaches
      rw [List.length_append, List.length_singleton] at hdepth
      omega
    cases hqdomain : q.isDomain with
    | true =>
      rw [hqdomain, if_pos rfl, error_ite_eq_ok, not_not] at hconstraints
      have hreaches : Reaches db q q.id 0 := .domain hqin hqdomain
      exact ⟨q.id, 0, hreaches, hlength hreaches, by rw [hconstraints.1]; exact hdid⟩
    | false =>
      rw [hqdomain, if_neg Bool.false_ne_true, error_ite_eq_ok, not_not] at hconstraints
      obtain ⟨d, n, hreaches, -, hd⟩ := h.reaches q hqin hqdomain
      exact ⟨d, n, hreaches, hlength hreaches, by rw [hdid, ← hconstraints.1, hd]⟩

theorem root_of_enforce (hdomain : p.isDomain = true) (hok : enforceProjectConstraints env db p = .ok ()) :
    p.parentId = none := by
  rw [enforceProjectConstraints, if_pos hdomain, assertIsDomainProjectConstraints, error_ite_eq_ok, bind_eq_ok] at hok
  obtain ⟨-, -, -, hok⟩ := hok
  rw [error_ite_eq_ok, Option.not_isSome_iff_eq_none] at hok
  exact hok.1

/-- **Creating keeps the tree.** -/
theorem createProject_keeps (h : Inv env.maxProjectTreeDepth db) {c : Create}
    (hok : createProject env db projectId c = .ok db') : Inv env.maxProjectTreeDepth db' := by
  rw [createProject, error_ite_eq_ok] at hok
  obtain ⟨-, hok⟩ := hok
  dsimp only at hok
  rw [bind_eq_ok] at hok
  obtain ⟨⟨⟩, henforce, hok⟩ := hok
  rw [bind_eq_ok] at hok
  obtain ⟨name, -, hok⟩ := hok
  rw [driverCreateProject, error_ite_eq_ok, not_or] at hok
  obtain ⟨⟨hfresh, -⟩, hok⟩ := hok
  cases hok
  refine h.append (fun q hq hid => hfresh ⟨q, hq, hid⟩) (fun hdomain => ?_) fun hregular => ?_
  · have hparent : c.parentId.or c.domainId = none :=
      root_of_enforce (p := ⟨projectId, c.name, _, _, _, _, _⟩) hdomain henforce
    exact ⟨hparent, (Option.or_eq_none_iff.mp hparent).2⟩
  · exact regular_of_enforce (p := ⟨projectId, c.name, _, _, _, _, _⟩) h hregular henforce

variable {enabled : Option Bool}

theorem createDomain_keeps (h : Inv env.maxProjectTreeDepth db) {name : String} {description : Option String}
    (hok : createDomain env db projectId name description enabled = .ok db') :
    Inv env.maxProjectTreeDepth db' := by
  rw [createDomain, error_ite_eq_ok] at hok
  exact createProject_keeps h hok.2

/-! ## 2. Deleting -/

theorem deleteProject'_keeps (h : Inv depth db) (hok : deleteProject' db projectId cascade = .ok db') : Inv depth db' := by
  rw [deleteProject', bind_eq_ok] at hok
  obtain ⟨project, hproject, hok⟩ := hok
  rw [error_ite_eq_ok, error_ite_eq_ok] at hok
  obtain ⟨-, hleaf, hok⟩ := hok
  cases cascade with
  | false =>
    cases hok
    refine h.remove fun p hp j hj hparent => ?_
    obtain rfl := List.mem_singleton.mp hj
    have hchild : p ∈ (nodes db).children [j] := Nodes.mem_children.mpr ⟨hp, j, List.mem_singleton_self j, hparent⟩
    have hnone : (nodes db).children [j] = [] := by
      by_contra hne
      exact hleaf ⟨decide_eq_false hne, rfl⟩
    rw [hnone] at hchild
    cases hchild
  | true =>
    rw [if_pos rfl, bind_eq_ok] at hok
    obtain ⟨subtree, hsubtree, hok⟩ := hok
    rw [error_ite_eq_ok] at hok
    cases hok.2
    have hmem := listProjectsInSubtree_eq_ok h hsubtree
    refine h.remove fun p hp j hj hparent => List.mem_append_left _ (List.mem_map_of_mem ((hmem p).mpr ⟨hp, ?_⟩))
    have hstep : (nodes db).IsParent p.id j := (h.isParent hp).mpr hparent
    rcases List.mem_append.mp hj with hj | hj
    · obtain ⟨q, hq, rfl⟩ := List.mem_map.mp hj
      exact .head hstep ((hmem q).mp hq).2
    · obtain rfl := List.mem_singleton.mp hj
      exact .single hstep

theorem untilError_keeps {σ α : Type} {f : σ → α → σ × Except Error Unit} {I : σ → Prop} (hf : ∀ s a, I s → I (f s a).1)
    (l : List α) {s : σ} (hs : I s) : I (untilError f s l).1 := by
  induction l generalizing s with
  | nil => exact hs
  | cons a l ih =>
    have hone := hf s a hs
    rw [untilError]
    split
    next s' _ heq =>
      rw [heq] at hone
      exact ih hone
    next s' _ heq =>
      rw [heq] at hone
      exact hone

/-- **Deleting keeps the tree**, also when it stops on the way. -/
theorem delete_keeps (fuel : ℕ) :
    (∀ db projectId cascade, Inv depth db → Inv depth (deleteProject fuel db projectId cascade).1) ∧
    (∀ db domainId, Inv depth db → Inv depth (deleteDomain fuel db domainId).1) ∧
    ∀ projects s project, Inv depth s.1 → Inv depth (deleteProjects fuel projects s project).1.1 := by
  have hatomic : ∀ {db : Db} {projectId cascade}, Inv depth db → Inv depth (atomically db (deleteProject' db projectId cascade)).1 := by
    intro db projectId cascade h
    cases hok : deleteProject' db projectId cascade with
    | error e => exact h
    | ok db' => exact deleteProject'_keeps h hok
  induction fuel with
  | zero => exact ⟨fun _ _ _ h => h, fun _ _ h => h, fun _ _ _ h => h⟩
  | succ fuel ih =>
    obtain ⟨hproject, hdomain, hprojects⟩ := ih
    refine ⟨fun db projectId cascade h => ?_, fun db domainId h => ?_, fun projects s project h => ?_⟩
    · rw [deleteProject]
      split
      · exact h
      · split
        · exact hdomain db projectId h
        · exact hatomic h
    · rw [deleteDomain]
      split
      · exact h
      · split
        · exact h
        · split
          · exact h
          next projects _ =>
            have hcontents := @untilError_keeps _ _ (deleteProjects fuel projects) (fun s => Inv depth s.1)
              (fun s a hs => hprojects projects s a hs) (projects.filter fun p => p.parentId = some domainId) (db, []) h
            split
            next heq => rw [heq] at hcontents; exact hcontents
            next heq =>
              rw [heq] at hcontents
              exact hatomic hcontents
    · obtain ⟨db, examined⟩ := s
      rw [deleteProjects]
      split
      · exact h
      · have hcontents := @untilError_keeps _ _ (deleteProjects fuel projects) (fun s => Inv depth s.1)
          (fun s a hs => hprojects projects s a hs) (projects.filter fun p => p.parentId = some project.id)
          (db, project.id :: examined) h
        split
        next heq => rw [heq] at hcontents; exact hcontents
        next heq =>
          rw [heq] at hcontents
          have hlast := hproject _ project.id false hcontents
          split
          next heq => rw [heq] at hlast; exact hlast
          next heq => rw [heq] at hlast; exact hlast

/-! ## 3. Updating -/

/-- The condition on updates: a project stays in its domain, and a cascade says what it sets, unless it sets nothing new. -/
structure Keeping (db : Db) (projectId : ℕ) (u : Update) (cascade : Bool) : Prop where
  domain : ∀ p ∈ db, p.id = projectId → p.isDomain = false → u.Moves p →
    (∃ c ∈ db, c.parentId = some projectId) ∨ ∀ q ∈ db, p.parentId = some q.id → q.isDomain = false
  cascade : cascade = true → u.enabled.isSome ∨ ∀ p ∈ db, Below db projectId p → p.enabled = true

theorem checkUpdateDomain_moves (h : Inv depth db) (hp : original ∈ db) (hid : original.id = projectId)
    (hkeeping : Keeping db projectId u cascade) (hok : checkUpdateDomain db original u = .ok ()) : ¬ u.Moves original := by
  intro hmoves
  rw [checkUpdateDomain, if_pos hmoves] at hok
  split at hok
  · cases hok
  next hregular =>
    have hregular := Bool.eq_false_iff.mpr hregular
    rw [bind_eq_ok] at hok
    obtain ⟨parent, hparent, hok⟩ := hok
    rw [error_ite_eq_ok, not_not, bind_eq_ok] at hok
    obtain ⟨hdomain, subtree, hsubtree, hok⟩ := hok
    rw [error_ite_eq_ok, not_not] at hok
    obtain ⟨hin, hpid⟩ := (getProject?_eq_ok h.nodup).mp hparent
    rcases hkeeping.domain original hp hid hregular hmoves with ⟨c, hc, hchild⟩ | hno
    · have hbelow : c ∈ subtree := (listProjectsInSubtree_eq_ok h hsubtree c).mpr ⟨hc, .single ((h.isParent hc).mpr (hid ▸ hchild))⟩
      rw [hok.1] at hbelow
      cases hbelow
    · rw [hno parent hin hpid] at hdomain
      cases hdomain

/-- What an update that passes the checks keeps of the row. -/
theorem samePlace_apply {v : Update} (hparent : ¬ ∃ x ∈ v.parentId, x ≠ original.parentId)
    (hdomain : ¬ ∃ x ∈ v.isDomain, x ≠ original.isDomain) (hmoves : ¬ v.Moves original) :
    SamePlace original (v.apply original) where
  id := rfl
  parentId := by
    show v.parentId.getD original.parentId = original.parentId
    cases hx : v.parentId with
    | none => rfl
    | some x => exact not_not.mp fun hne => hparent ⟨x, hx, hne⟩
  isDomain := by
    show (v.isDomain.getD false || original.isDomain) = original.isDomain
    cases hx : v.isDomain with
    | none => rfl
    | some x =>
      have heq : x = original.isDomain := not_not.mp fun hne => hdomain ⟨x, hx, hne⟩
      rw [Option.getD_some, heq, Bool.or_self]
  domainId := by
    show v.domainId.getD original.domainId = original.domainId
    cases hx : v.domainId with
    | none => rfl
    | some x => exact not_not.mp fun hne => hmoves ⟨x, hx, hne⟩

/-- **The driver's update** is that of one row. -/
theorem driverUpdateProject_eq_ok (h : (db.map Project.id).Nodup) (hok : driverUpdateProject env db projectId u = .ok db') :
    ∃ original ∈ db, ∃ name, original.id = projectId ∧
      db' = db.map fun q => if q.id = projectId then { u with name := name }.apply original else q := by
  rw [driverUpdateProject, bind_eq_ok] at hok
  obtain ⟨name, -, hok⟩ := hok
  rw [bind_eq_ok] at hok
  obtain ⟨original, horiginal, hok⟩ := hok
  dsimp only at hok
  rw [error_ite_eq_ok] at hok
  obtain ⟨hin, hid⟩ := (getProject_eq_ok h).mp horiginal
  cases hok.2
  exact ⟨original, hin, name, hid, rfl⟩

/-- No project is below itself, and what is above one that is not below is not below either. -/
theorem below_iff_parent (h : Inv depth db) (hp : p ∈ db) (hparent : p.parentId = some q.id) :
    Below db projectId p ↔ q.id = projectId ∨ Below db projectId q := by
  have hstep : (nodes db).IsParent p.id q.id := (h.isParent hp).mpr hparent
  constructor
  · intro hbelow
    obtain ⟨z, hz, hrest⟩ := Relation.TransGen.head'_iff.mp hbelow
    obtain rfl := h.isForest.parent_unique hstep hz
    rcases Relation.reflTransGen_iff_eq_or_transGen.mp hrest with heq | htrans
    · exact .inl heq.symm
    · exact .inr htrans
  · rintro (rfl | hbelow)
    · exact .single hstep
    · exact .head hstep hbelow

/-- The project itself and, in a cascade, all below it. -/
def Touched (db : Db) (projectId : ℕ) (cascade : Bool) (p : Project) : Prop :=
  p.id = projectId ∨ cascade = true ∧ Below db projectId p

/-- What an update does to the rows. -/
structure Updates (db : Db) (projectId : ℕ) (u : Update) (cascade : Bool) (g : Project → Project) : Prop where
  place : ∀ p ∈ db, SamePlace p (g p)
  inside : ∀ p ∈ db, Touched db projectId cascade p → (g p).enabled = u.enabled.getD p.enabled
  outside : ∀ p ∈ db, ¬ Touched db projectId cascade p → (g p).enabled = p.enabled

theorem not_below_self (h : Inv depth db) (hid : p.id = projectId) : ¬ Below db projectId p := by
  rw [Below, hid]
  exact h.isForest.acyclic projectId

/-- The row after the cascade. -/
def cascaded (subtree : List Project) (enabled : Bool) (p : Project) : Project :=
  if p.id ∈ (subtree.filter fun child => child.enabled ≠ enabled).map Project.id then { p with enabled := enabled } else p

theorem samePlace_cascaded (subtree : List Project) (enabled : Bool) (p : Project) :
    SamePlace p (cascaded subtree enabled p) := by
  rw [cascaded]
  split
  · exact ⟨rfl, rfl, rfl, rfl⟩
  · exact ⟨rfl, rfl, rfl, rfl⟩

theorem cascaded_of_below {subtree : List Project} {enabled : Bool} (hp : p ∈ subtree) :
    (cascaded subtree enabled p).enabled = enabled := by
  rw [cascaded]
  split
  · rfl
  next hno =>
    by_contra hne
    exact hno (List.mem_map_of_mem (List.mem_filter.mpr ⟨hp, decide_eq_true hne⟩))

theorem cascaded_of_not_below (h : Inv depth db) {subtree : List Project} {enabled : Bool}
    (hmem : ∀ p, p ∈ subtree ↔ p ∈ db ∧ Below db projectId p) (hp : p ∈ db) (hno : ¬ Below db projectId p) :
    cascaded subtree enabled p = p := by
  rw [cascaded, if_neg]
  intro hin
  obtain ⟨q, hq, hid⟩ := List.mem_map.mp hin
  obtain ⟨hqin, hbelow⟩ := (hmem q).mp (List.mem_filter.mp hq).1
  exact hno (h.eq_of_id hqin hp hid ▸ hbelow)

/-- **The rows after an update**, and the check of the flags. -/
theorem updateProject'_updates (h : Inv depth db) (hkeeping : Keeping db projectId u cascade)
    (hok : updateProject' env db projectId u cascade = .ok db') :
    ∃ g, db' = db.map g ∧ Updates db projectId u cascade g ∧
      ∃ original ∈ db, original.id = projectId ∧ checkEnabled db original u cascade = .ok () := by
  rw [updateProject', bind_eq_ok] at hok
  obtain ⟨original, horiginal, hok⟩ := hok
  rw [bind_eq_ok] at hok
  obtain ⟨-, -, hok⟩ := hok
  rw [error_ite_eq_ok, error_ite_eq_ok, bind_eq_ok] at hok
  obtain ⟨hparent, hdomain, ⟨⟩, hcheck, hok⟩ := hok
  rw [bind_eq_ok] at hok
  obtain ⟨⟨⟩, henabled, hok⟩ := hok
  obtain ⟨hin, hid⟩ := (getProject_eq_ok h.nodup).mp horiginal
  have hmoves := checkUpdateDomain_moves h hin hid hkeeping hcheck
  cases cascade with
  | false =>
    obtain ⟨original', hin', name, hid', rfl⟩ := driverUpdateProject_eq_ok h.nodup hok
    obtain rfl := h.eq_of_id hin hin' (hid.trans hid'.symm)
    refine ⟨_, rfl, ⟨fun p hp => ?_, fun p hp ht => ?_, fun p hp ht => ?_⟩, original, hin, hid, henabled⟩
    · split
      next hpid =>
        rw [h.eq_of_id hp hin (hpid.trans hid.symm)]
        exact samePlace_apply (v := { u with name := name }) hparent hdomain hmoves
      next => exact ⟨rfl, rfl, rfl, rfl⟩
    · have hpid : p.id = projectId := ht.resolve_right fun hc => nomatch hc.1
      rw [if_pos hpid, h.eq_of_id hp hin (hpid.trans hid.symm)]
      rfl
    · rw [if_neg fun hpid => ht (.inl hpid)]
  | true =>
    rw [if_pos rfl, bind_eq_ok] at hok
    obtain ⟨-, -, hok⟩ := hok
    rw [bind_eq_ok] at hok
    obtain ⟨db1, hdb1, hok⟩ := hok
    rw [updateProjectEnabledCascade, bind_eq_ok] at hdb1
    obtain ⟨subtree, hsubtree, hdb1⟩ := hdb1
    cases hdb1
    have hmem := listProjectsInSubtree_eq_ok h hsubtree
    have hnodup : ((db.map (cascaded subtree (u.enabled.getD true))).map Project.id).Nodup := by
      have hids : (db.map (cascaded subtree (u.enabled.getD true))).map Project.id = db.map Project.id := by
        rw [List.map_map]
        exact List.map_congr_left fun p _ => (samePlace_cascaded subtree (u.enabled.getD true) p).id
      rw [hids]
      exact h.nodup
    have hself : cascaded subtree (u.enabled.getD true) original = original :=
      cascaded_of_not_below h hmem hin (not_below_self h hid)
    obtain ⟨original', hin', name, hid', rfl⟩ := driverUpdateProject_eq_ok hnodup hok
    obtain rfl : original = original' := by
      obtain ⟨x, hx, rfl⟩ := List.mem_map.mp hin'
      rw [(samePlace_cascaded _ _ x).id] at hid'
      rw [h.eq_of_id hx hin (hid'.trans hid.symm)]
      exact hself.symm
    have hplace : SamePlace original ({ u with name := name }.apply original) :=
      samePlace_apply (v := { u with name := name }) hparent hdomain hmoves
    refine ⟨_, List.map_map, ⟨fun p hp => ?_, fun p hp ht => ?_, fun p hp ht => ?_⟩, original, hin, hid, henabled⟩
    · have hfirst := samePlace_cascaded subtree (u.enabled.getD true) p
      rw [Function.comp_apply, hfirst.id]
      split
      next hpid =>
        rw [h.eq_of_id hp hin (hpid.trans hid.symm)]
        exact hplace
      next => exact hfirst
    · rw [Function.comp_apply, (samePlace_cascaded _ _ p).id]
      split
      next hpid =>
        rw [h.eq_of_id hp hin (hpid.trans hid.symm)]
        rfl
      next hpid =>
        obtain ⟨-, hbelow⟩ := ht.resolve_left hpid
        rw [cascaded_of_below ((hmem p).mpr ⟨hp, hbelow⟩)]
        cases henabled' : u.enabled with
        | some x => rfl
        | none =>
          rcases hkeeping.cascade rfl with hsome | hall
          · rw [henabled'] at hsome
            cases hsome
          · exact (hall p hp hbelow).symm
    · have hpid : p.id ≠ projectId := fun hpid => ht (.inl hpid)
      have hno : ¬ Below db projectId p := fun hbelow => ht (.inr ⟨rfl, hbelow⟩)
      rw [Function.comp_apply, cascaded_of_not_below h hmem hp hno, if_neg hpid]

/-- **Updating keeps the tree.** -/
theorem updateProject'_keeps (h : Inv depth db) (hkeeping : Keeping db projectId u cascade)
    (hok : updateProject' env db projectId u cascade = .ok db') : Inv depth db' := by
  obtain ⟨g, rfl, hg, original, hin, hid, hcheck⟩ := updateProject'_updates h hkeeping hok
  refine h.map hg.place fun p hp q hq hpreg hqreg hparent henabled => ?_
  have hstep : (nodes db).IsParent p.id q.id := (h.isParent hp).mpr hparent
  have habove : Below db projectId p ↔ q.id = projectId ∨ Below db projectId q := below_iff_parent h hp hparent
  by_cases htp : Touched db projectId cascade p
  · rw [hg.inside p hp htp] at henabled
    rcases htp with hpid | ⟨hcascade, hbelow⟩
    · -- the project itself: its parent is enabled, or was checked
      have hq' : ¬ Touched db projectId cascade q := by
        rintro (hqid | ⟨-, hbelow⟩)
        · exact not_below_self h hpid (habove.mpr (.inl hqid))
        · exact not_below_self h hpid (habove.mpr (.inr hbelow))
      rw [hg.outside q hq hq']
      obtain rfl := h.eq_of_id hp hin (hpid.trans hid.symm)
      cases hpenabled : p.enabled with
      | true => exact h.enabled p hp q hq hpreg hqreg hparent hpenabled
      | false =>
        have hgiven : u.enabled.getD true = true := by
          rw [hpenabled] at henabled
          cases hu : u.enabled with
          | none => rfl
          | some x =>
            rw [hu] at henabled
            exact henabled
        rw [checkEnabled] at hcheck
        rw [if_pos ⟨hpenabled, hgiven⟩, assertAllParentsAreEnabled, bind_eq_ok] at hcheck
        obtain ⟨parents, hparents, hcheck⟩ := hcheck
        rw [error_ite_eq_ok] at hcheck
        have hqin := listProjectParents_eq_ok h hp hparents q hq hparent
        exact Bool.eq_true_of_not_eq_false fun hfalse => hcheck.1 ⟨q, hqin, hfalse⟩
    · -- below it: so is the parent, or it is the project itself
      rw [hg.inside q hq ((habove.mp hbelow).imp id fun hb => ⟨hcascade, hb⟩)]
      cases hu : u.enabled with
      | some x =>
        rw [hu] at henabled
        exact henabled
      | none =>
        rw [hu] at henabled
        exact h.enabled p hp q hq hpreg hqreg hparent henabled
  · rw [hg.outside p hp htp] at henabled
    have hqenabled := h.enabled p hp q hq hpreg hqreg hparent henabled
    by_cases htq : Touched db projectId cascade q
    · -- only when the update does not cascade: then all below are disabled
      have hqid : q.id = projectId := htq.resolve_right fun hb => htp (.inr ⟨hb.1, habove.mpr (.inr hb.2)⟩)
      have hbelow : Below db projectId p := habove.mpr (.inl hqid)
      have hcascade : cascade = false := Bool.eq_false_iff.mpr fun hc => htp (.inr ⟨hc, hbelow⟩)
      rw [hg.inside q hq htq]
      obtain rfl := h.eq_of_id hq hin (hqid.trans hid.symm)
      cases hu : u.enabled with
      | none => exact hqenabled
      | some x =>
        cases x with
        | true => rfl
        | false =>
          rw [checkEnabled] at hcheck
          rw [hu, if_neg (fun hc => nomatch hc.2), if_pos ⟨hqenabled, rfl, hqreg, hcascade⟩, bind_eq_ok] at hcheck
          obtain ⟨disabled, hdisabled, hcheck⟩ := hcheck
          rw [ite_error_eq_ok] at hcheck
          rw [checkWholeSubtreeIsDisabled, bind_eq_ok] at hdisabled
          obtain ⟨subtree, hsubtree, hdisabled⟩ := hdisabled
          rw [hqid] at hsubtree
          have hpin := (listProjectsInSubtree_eq_ok h hsubtree p).mpr ⟨hp, hbelow⟩
          rw [← Except.ok.inj hdisabled, List.all_eq_true] at hcheck
          have := of_decide_eq_true (hcheck.1 p hpin)
          rw [henabled] at this
          cases this
    · rw [hg.outside q hq htq]
      exact hqenabled

/-- An update of a domain is one of a project that acts as one. -/
theorem keeping_of_updateDomain (h : Inv depth db) {name : Option String} {description : Option (Option String)}
    (hok : updateProject' env db projectId ⟨name, description, some none, some none, some true, enabled⟩ false = .ok db') :
    Keeping db projectId ⟨name, description, some none, some none, some true, enabled⟩ false where
  domain p hp hid hregular _ := by
    rw [updateProject', bind_eq_ok] at hok
    obtain ⟨original, horiginal, hok⟩ := hok
    rw [bind_eq_ok] at hok
    obtain ⟨-, -, hok⟩ := hok
    rw [error_ite_eq_ok] at hok
    obtain ⟨hin, hid'⟩ := (getProject_eq_ok h.nodup).mp horiginal
    obtain rfl := h.eq_of_id hp hin (hid.trans hid'.symm)
    obtain ⟨d, n, hreaches, -⟩ := h.reaches p hp hregular
    cases hreaches with
    | domain _ hdomain => exact nomatch hregular.symm.trans hdomain
    | up _ _ _ hparent _ => exact absurd ⟨none, rfl, by rw [hparent]; exact nofun⟩ hok.1
  cascade hc := nomatch hc

theorem updateDomain_updates (h : Inv depth db) {name : Option String} {description : Option (Option String)}
    (hok : updateDomain env db projectId name description enabled = .ok db') :
    Keeping db projectId ⟨name, description, some none, some none, some true, enabled⟩ false ∧
      updateProject' env db projectId ⟨name, description, some none, some none, some true, enabled⟩ false = .ok db' := by
  rw [updateDomain, error_ite_eq_ok] at hok
  exact ⟨keeping_of_updateDomain h hok.2, hok.2⟩

/-- An update that does not mention `enabled` leaves every flag. -/
theorem updateProject'_silent (h : Inv depth db) (hkeeping : Keeping db projectId u cascade) (hu : u.enabled = none)
    (hok : updateProject' env db projectId u cascade = .ok db') :
    db'.map (fun p => (p.id, p.enabled)) = db.map fun p => (p.id, p.enabled) := by
  obtain ⟨g, rfl, hg, -⟩ := updateProject'_updates h hkeeping hok
  rw [List.map_map]
  refine List.map_congr_left fun p hp => Prod.ext (hg.place p hp).id ?_
  by_cases ht : Touched db projectId cascade p
  · exact (hg.inside p hp ht).trans (by rw [hu]; rfl)
  · exact hg.outside p hp ht

/-! ## 4. Runs -/

inductive Op
  | createProject (projectId : ℕ) (c : Create)
  | createDomain (domainId : ℕ) (name : String) (description : Option String) (enabled : Option Bool)
  | updateProject (projectId : ℕ) (u : Update) (cascade : Bool)
  | updateDomain (domainId : ℕ) (name : Option String) (description : Option (Option String)) (enabled : Option Bool)
  | deleteProject (projectId : ℕ) (cascade : Bool)
  | deleteDomain (domainId : ℕ)

/-- The table after a call, whether it fails or not. -/
def after (env : Env) (fuel : ℕ) (db : Db) : Op → Db
  | .createProject projectId c => (atomically db (createProject env db projectId c)).1
  | .createDomain domainId name description enabled => (atomically db (createDomain env db domainId name description enabled)).1
  | .updateProject projectId u cascade => (atomically db (updateProject' env db projectId u cascade)).1
  | .updateDomain domainId name description enabled => (atomically db (updateDomain env db domainId name description enabled)).1
  | .deleteProject projectId cascade => (deleteProject fuel db projectId cascade).1
  | .deleteDomain domainId => (deleteDomain fuel db domainId).1

def step (env : Env) (fuel : ℕ) (db : Db) (op : Op) : Option Db := some (after env fuel db op)

def Allowed (db : Db) : Op → Prop
  | .updateProject projectId u cascade => Keeping db projectId u cascade
  | _ => True

/-- An update that does not mention `enabled`. -/
def Silent : Op → Prop
  | .updateProject _ u _ => u.enabled = none
  | .updateDomain _ _ _ enabled => enabled = none
  | _ => False

theorem atomically_keeps {I : Db → Prop} (h : I db) {result : Except Error Db} (hok : ∀ db', result = .ok db' → I db') :
    I (atomically db result).1 := by
  cases result with
  | error e => exact h
  | ok db' => exact hok db' rfl

/-- **Every call keeps the tree.** -/
theorem after_keeps {fuel : ℕ} (h : Inv env.maxProjectTreeDepth db) {op : Op} (hallowed : Allowed db op) :
    Inv env.maxProjectTreeDepth (after env fuel db op) := by
  cases op with
  | createProject projectId c => exact atomically_keeps h fun db' hok => createProject_keeps h hok
  | createDomain domainId name description enabled => exact atomically_keeps h fun db' hok => createDomain_keeps h hok
  | updateProject projectId u cascade => exact atomically_keeps h fun db' hok => updateProject'_keeps h hallowed hok
  | updateDomain domainId name description enabled =>
    refine atomically_keeps h fun db' hok => ?_
    obtain ⟨hkeeping, hok⟩ := updateDomain_updates h hok
    exact updateProject'_keeps h hkeeping hok
  | deleteProject projectId cascade => exact (delete_keeps fuel).1 db projectId cascade h
  | deleteDomain domainId => exact (delete_keeps fuel).2.1 db domainId h

/-- The projects above one. -/
inductive Above (db : Db) (p : Project) : Project → Prop
  | parent {q : Project} : q ∈ db → p.parentId = some q.id → Above db p q
  | further {q r : Project} : Above db p q → r ∈ db → q.parentId = some r.id → Above db p r

theorem Inv.enabled_above (h : Inv depth db) (hp : p ∈ db) (hregular : p.isDomain = false) (henabled : p.enabled = true)
    (habove : Above db p q) (hqregular : q.isDomain = false) : q.enabled = true := by
  have hmem : ∀ {q}, Above db p q → q ∈ db := fun h => by
    cases h with
    | parent hq _ => exact hq
    | further _ hr _ => exact hr
  induction habove with
  | parent hq hparent => exact h.enabled p hp _ hq hregular hqregular hparent henabled
  | @further q r hq hr hparent ih =>
    have hreg := (h.parent (hmem hq) hparent).1
    exact h.enabled q (hmem hq) r hr hreg hqregular hparent (ih hreg)

/-- **The tree of projects** on every run. -/
theorem project_tree {fuel : ℕ} (h : Reach (step env fuel) Allowed [] db) :
    (∀ p ∈ db, p.isDomain = false → ∃ d n, Reaches db p d n ∧ n ≤ env.maxProjectTreeDepth ∧ p.domainId = some d) ∧
    (∀ p ∈ db, ∀ q, p.isDomain = false → q.isDomain = false → p.enabled = true → Above db p q → q.enabled = true) ∧
    ∀ op, Allowed db op → Silent op →
      (after env fuel db op).map (fun p => (p.id, p.enabled)) = db.map fun p => (p.id, p.enabled) := by
  have hinv : Inv env.maxProjectTreeDepth db := by
    refine h.invariant (I := Inv env.maxProjectTreeDepth) ⟨List.nodup_nil, nofun, nofun, nofun⟩ ?_
    intro t op t' ht hallowed hstep
    cases hstep
    exact after_keeps ht hallowed
  refine ⟨hinv.reaches, fun p hp q hpreg hqreg henabled habove => hinv.enabled_above hp hpreg henabled habove hqreg, ?_⟩
  intro op hallowed hsilent
  cases op with
  | updateProject projectId u cascade =>
    exact atomically_keeps (I := fun s => s.map (fun p => (p.id, p.enabled)) = db.map fun p => (p.id, p.enabled)) rfl
      fun db' hok => updateProject'_silent hinv hallowed hsilent hok
  | updateDomain domainId name description enabled =>
    refine atomically_keeps (I := fun s => s.map (fun p => (p.id, p.enabled)) = db.map fun p => (p.id, p.enabled)) rfl
      fun db' hok => ?_
    obtain ⟨hkeeping, hok⟩ := updateDomain_updates hinv hok
    exact updateProject'_silent hinv hkeeping hsilent hok
  | createProject _ _ => cases hsilent
  | createDomain _ _ _ _ => cases hsilent
  | deleteProject _ _ => cases hsilent
  | deleteDomain _ => cases hsilent

/-- The default depth, and every name allowed. -/
def services : Env := ⟨5, true, 1, .ok, fun _ => false, fun _ => false, fun _ _ => false⟩

def run (ops : List Op) : Db := ops.foldl (after services 9) []

/-- A domain and a project in it, which is then renamed. -/
theorem project_tree_renamed :
    let db := run [.createDomain 1 "d" none none, .createProject 2 ⟨"p", none, some 1, none, false, none⟩,
      .updateProject 2 ⟨some "q", none, none, none, none, none⟩ false]
    (∀ p ∈ db, p.isDomain = false → ∃ d n, Reaches db p d n ∧ n ≤ 5 ∧ p.domainId = some d) ∧
    (∀ p ∈ db, ∀ q, p.isDomain = false → q.isDomain = false → p.enabled = true → Above db p q → q.enabled = true) ∧
    ∀ op, Allowed db op → Silent op →
      (after services 9 db op).map (fun p => (p.id, p.enabled)) = db.map fun p => (p.id, p.enabled) := by
  have hrename : ∀ db, Keeping db 2 ⟨some "q", none, none, none, none, none⟩ false := fun db =>
    ⟨fun p _ _ _ hmoves => (nomatch hmoves.choose_spec.1), nofun⟩
  have hdomain : ∀ db, Allowed db (.createDomain 1 "d" none none) := fun _ => trivial
  have hproject : ∀ db, Allowed db (.createProject 2 ⟨"p", none, some 1, none, false, none⟩) := fun _ => trivial
  have hupdate : ∀ db, Allowed db (.updateProject 2 ⟨some "q", none, none, none, none, none⟩ false) := hrename
  exact project_tree (((Reach.refl.tail (hdomain _) rfl).tail (hproject _) rfl).tail (hupdate _) rfl)

/-- Another domain leaves the parent, and a cascade without `enabled` enables what is below a disabled project. -/
theorem project_tree_fails :
    (run [.createDomain 1 "a" none none, .createDomain 2 "b" none none,
      .createProject 3 ⟨"p", none, some 1, none, false, none⟩,
      .updateProject 3 ⟨none, none, some (some 2), none, none, none⟩ false]).map
        (fun p => (p.id, p.domainId, p.parentId)) = [(1, none, none), (2, none, none), (3, some 2, some 1)] ∧
    (run [.createDomain 1 "a" none none, .createProject 2 ⟨"p", none, some 1, none, false, none⟩,
      .createProject 3 ⟨"q", none, some 1, some 2, false, none⟩,
      .updateProject 2 ⟨none, none, none, none, none, some false⟩ true,
      .updateProject 2 ⟨some "p", none, none, none, none, none⟩ true]).map
        (fun p => (p.id, p.parentId, p.enabled)) = [(1, none, true), (2, some 1, false), (3, some 2, true)] := by
  decide +kernel

end Mitaka.Keystone.Resource
