/-
  Subject: What the effective listing of role assignments is for.

  An assignment covers the users of its actor and, when it is inherited, the projects
  below its target. `listRoleAssignments_spec` says which triples of user, role and target
  the listing has for any filters; the filters are exact where they name no project that
  acts as a domain.
-/
import Mitaka.Keystone.RoleAssignments

namespace Mitaka.Keystone

open Relation List Option

variable {ι : Type*} [DecidableEq ι]

/-! ## 1. What is assigned -/

namespace Directory

/-- `projectId` is a project below `parentId`. -/
def Below (dir : Directory ι) (projectId parentId : ι) : Prop := TransGen dir.nodes.IsParent projectId parentId

/-- `domainId` owns the project. -/
def Owns (dir : Directory ι) (domainId projectId : ι) : Prop :=
  ∃ project ∈ dir.projects, project.id = projectId ∧ project.domainId = some domainId

/-- The project acts as a domain. -/
def ActsAsDomain (dir : Directory ι) (projectId : ι) : Prop :=
  ∃ project ∈ dir.projects, project.id = projectId ∧ project.domainId = none

/-- A role implies another in one step. -/
def Implies (dir : Directory ι) (conf : AssignmentConf) (priorRoleId impliedRoleId : ι) : Prop :=
  conf.inferRoles = true ∧ (priorRoleId, impliedRoleId) ∈ dir.implications

/-- Domain roles are not listed when they are stripped. -/
def Lists (dir : Directory ι) (strip : Bool) (roleId : ι) : Prop :=
  strip = true → ∃ role ∈ dir.roles, role.id = roleId ∧ role.domainId = none

/-- What the drivers keep: a forest whose projects are in the domain of their parent, or of which the parent acts
as the domain, and references to what exists. -/
structure WellFormed (dir : Directory ι) : Prop where
  forest : dir.nodes.IsForest
  owner : ∀ p ∈ dir.projects, ∀ d, p.domainId = some d → dir.ActsAsDomain d
  parent : ∀ p ∈ dir.projects, ∀ q ∈ dir.projects, p.parentId = some q.id → p.domainId = some (q.domainId.getD q.id)
  members : ∀ m ∈ dir.memberships, m.1 ∈ dir.users ∧ m.2 ∈ dir.groups
  roles : (dir.roles.map Role.id).Nodup
  implied : ∀ i ∈ dir.implications, ∃ role ∈ dir.roles, role.id = i.2

end Directory

/-- What a role is assigned on. -/
inductive Target (ι : Type*)
  | project (projectId : ι)
  | domain (domainId : ι)
  deriving DecidableEq

/-- A user, a role, and a project or domain. -/
@[ext] structure Triple (ι : Type*) where
  userId : ι
  roleId : ι
  target : Target ι
  deriving DecidableEq

namespace RoleAssignment

/-- Role, actor and target of a row exist. -/
structure WellFormed (dir : Directory ι) (row : RoleAssignment ι) : Prop where
  role : ∃ role ∈ dir.roles, role.id = row.roleId
  actor : row.actorId ∈ if row.type.isUser then dir.users else dir.groups
  target : ∃ p ∈ dir.projects, p.id = row.targetId ∧ (row.type.isProject = true ∨ p.domainId = none)

/-- The row is for the user or a group of the user. -/
def Covers (dir : Directory ι) (row : RoleAssignment ι) (userId : ι) : Prop :=
  if row.type.isUser then row.actorId = userId else (userId, row.actorId) ∈ dir.memberships

/-- The target of a row. -/
def target (row : RoleAssignment ι) : Target ι :=
  if row.type.isProject then .project row.targetId else .domain row.targetId

/-- The row is on the target, or on the owning domain or a proper ancestor of it and inherited. -/
def On (dir : Directory ι) (conf : AssignmentConf) (row : RoleAssignment ι) (target : Target ι) : Prop :=
  if row.inherited then
    conf.osInherit = true ∧ ∃ projectId, target = .project projectId ∧
      if row.type.isProject then dir.Below projectId row.targetId else dir.Owns row.targetId projectId
  else target = row.target

end RoleAssignment

/-- The triple is in the closure of what is assigned, and listed. -/
def Effective (dir : Directory ι) (conf : AssignmentConf) (rows : List (RoleAssignment ι)) (strip : Bool)
    (t : Triple ι) : Prop :=
  (∃ row ∈ rows, row.Covers dir t.userId ∧ row.On dir conf t.target ∧
    ReflTransGen (dir.Implies conf) row.roleId t.roleId) ∧ dir.Lists strip t.roleId

namespace Filters

/-- The user and the project of the filters exist. -/
structure WellFormed (dir : Directory ι) (filters : Filters ι) : Prop where
  user : ∀ userId ∈ filters.userId, userId ∈ dir.users
  project : ∀ projectId ∈ filters.projectId, ∃ project ∈ dir.projects, project.id = projectId

/-- The target is one of the filters. -/
def MatchesTarget (dir : Directory ι) (filters : Filters ι) (target : Target ι) : Prop :=
  (∀ projectId ∈ filters.projectId, ∃ q, target = .project q ∧
    (q = projectId ∨ filters.includeSubtree = true ∧ dir.Below q projectId)) ∧
  ∀ domainId ∈ filters.domainId, target = .domain domainId

/-- The triple matches the filters. -/
def Matches (dir : Directory ι) (filters : Filters ι) (t : Triple ι) : Prop :=
  (∀ roleId ∈ filters.roleId, t.roleId = roleId) ∧ (∀ userId ∈ filters.userId, t.userId = userId) ∧
    filters.MatchesTarget dir t.target

end Filters

/-! ## 2. Projects -/

namespace Directory.WellFormed

variable {dir : Directory ι} (hdir : dir.WellFormed)

include hdir

variable {p : Project ι}

theorem getProject_eq (hp : p ∈ dir.projects) : dir.getProject p.id = some p := by
  unfold Directory.getProject
  cases hf : dir.projects.find? fun q => q.id = p.id with
  | none =>
    have hne := find?_eq_none.mp hf p hp
    simp at hne
  | some q =>
    have hid : q.id = p.id := by simpa using find?_some hf
    exact congrArg some (hdir.forest.eq_of_id (mem_of_find?_eq_some hf) hp hid)

omit [DecidableEq ι] in
theorem exists_of_below {x y : ι} (h : dir.Below x y) :
    (∃ p ∈ dir.projects, p.id = x) ∧ ∃ q ∈ dir.projects, q.id = y := by
  obtain ⟨z, ⟨p, hp, hpx, -⟩, -⟩ := TransGen.head'_iff.mp h
  obtain ⟨w, -, a, ha, -, hay⟩ := TransGen.tail'_iff.mp h
  exact ⟨⟨p, hp, hpx⟩, hdir.forest.parent a ha y hay⟩

theorem listProjectsInSubtree_spec (hp : p ∈ dir.projects) :
    ∃ l, dir.listProjectsInSubtree p.id = some l ∧ ∀ x, x ∈ l.map Project.id ↔ dir.Below x p.id := by
  obtain ⟨l, hl, hmem⟩ := hdir.forest.subtree_spec p.id
  refine ⟨l, ?_, fun x => ?_⟩
  · rw [Directory.listProjectsInSubtree, hdir.getProject_eq hp]
    exact hl
  · rw [List.mem_map]
    constructor
    · rintro ⟨q, hq, rfl⟩
      exact ((hmem q).mp hq).2
    · intro h
      obtain ⟨⟨q, hq, rfl⟩, -⟩ := hdir.exists_of_below h
      exact ⟨q, (hmem q).mpr ⟨hq, h⟩, rfl⟩

theorem listProjectParents_spec (hp : p ∈ dir.projects) :
    ∃ l, dir.listProjectParents p.id = some l ∧ ∀ x, x ∈ l.map Project.id ↔ dir.Below p.id x := by
  obtain ⟨l, hl, hmem⟩ := hdir.forest.parents_spec hp
  refine ⟨l, ?_, fun x => ?_⟩
  · rw [Directory.listProjectParents, hdir.getProject_eq hp]
    exact hl
  · rw [List.mem_map]
    constructor
    · rintro ⟨q, hq, rfl⟩
      exact ((hmem q).mp hq).2
    · intro h
      obtain ⟨-, q, hq, rfl⟩ := hdir.exists_of_below h
      exact ⟨q, (hmem q).mpr ⟨hq, h⟩, rfl⟩

theorem listProjectsInDomain_spec (hp : p ∈ dir.projects) :
    ∃ l, dir.listProjectsInDomain p.id = some l ∧ ∀ x, x ∈ l.map Project.id ↔ dir.Owns p.id x := by
  refine ⟨dir.projects.filter (·.domainId = some p.id), ?_, fun x => ?_⟩
  · rw [Directory.listProjectsInDomain, hdir.getProject_eq hp, map_some]
  · rw [List.mem_map]
    constructor
    · rintro ⟨q, hq, rfl⟩
      obtain ⟨hq, hd⟩ := mem_filter.mp hq
      exact ⟨q, hq, rfl, of_decide_eq_true hd⟩
    · rintro ⟨q, hq, rfl, hd⟩
      exact ⟨q, mem_filter.mpr ⟨hq, decide_eq_true hd⟩, rfl⟩

omit [DecidableEq ι] in
/-- A project below one that is in a domain is in the same domain. -/
theorem owns_of_below {p q d : ι} (h : dir.Below q p) (hp : dir.Owns d p) : dir.Owns d q := by
  induction h using TransGen.head_induction_on with
  | single h =>
    obtain ⟨a, ha, rfl, hap⟩ := h
    obtain ⟨b, hb, rfl, hbd⟩ := hp
    refine ⟨a, ha, rfl, ?_⟩
    rw [hdir.parent a ha b hb hap, hbd, getD_some]
  | head h _ ih =>
    obtain ⟨a, ha, rfl, hac⟩ := h
    obtain ⟨b, hb, rfl, hbd⟩ := ih
    refine ⟨a, ha, rfl, ?_⟩
    rw [hdir.parent a ha b hb hac, hbd, getD_some]

omit [DecidableEq ι] in
theorem owns_unique {p d e : ι} (hd : dir.Owns d p) (he : dir.Owns e p) : d = e := by
  obtain ⟨a, ha, rfl, had⟩ := hd
  obtain ⟨b, hb, hid, hbe⟩ := he
  obtain rfl := hdir.forest.eq_of_id hb ha hid
  exact Option.some.inj (had.symm.trans hbe)

omit [DecidableEq ι] in
/-- Nothing is above a project that acts as a domain, and no domain owns it. -/
theorem not_below_of_actsAsDomain {d x : ι} (hd : dir.ActsAsDomain d) : ¬ dir.Below d x ∧ ¬ dir.Owns x d := by
  obtain ⟨p, hp, rfl, hpd⟩ := hd
  constructor
  · intro h
    obtain ⟨z, ⟨a, ha, hid, haz⟩, -⟩ := TransGen.head'_iff.mp h
    obtain rfl := hdir.forest.eq_of_id ha hp hid
    obtain ⟨b, hb, rfl⟩ := hdir.forest.parent a ha z haz
    have hdom := hdir.parent a ha b hb haz
    rw [hpd] at hdom
    cases hdom
  · rintro ⟨q, hq, hid, hqd⟩
    obtain rfl := hdir.forest.eq_of_id hq hp hid
    rw [hpd] at hqd
    cases hqd

end Directory.WellFormed

/-! ## 3. The rows that are read -/

omit [DecidableEq ι] in
theorem mem_given_iff {l : Option (List ι)} {x : List ι} : given l = some x ↔ l = some x ∧ x ≠ [] := by
  rw [given, filter_eq_some_iff, Bool.not_eq_eq_eq_not, Bool.not_true, isEmpty_eq_false_iff]

theorem mem_getAssignmentTypes {user group project domain : Bool} (h : ¬ (user = true ∧ group = true))
    {type : AssignmentType} :
    (getAssignmentTypes user group project domain = [] ∨ type ∈ getAssignmentTypes user group project domain) ↔
      (user = true → type.isUser = true) ∧ (group = true → type.isUser = false) ∧
        (project = true → type.isProject = true) ∧ (project = false → domain = true → type.isProject = false) := by
  revert h
  cases user <;> cases group <;> cases project <;> cases domain <;> cases type <;> decide

/-- The row is read for the actor. -/
def ReadsActor (userId : Option ι) (groupIds : Option (List ι)) (row : RoleAssignment ι) : Prop :=
  (∀ u ∈ userId, row.type.isUser = true ∧ row.actorId = u) ∧
    ∀ ids ∈ given groupIds, row.type.isUser = false ∧ row.actorId ∈ ids

variable {userId : Option ι}

theorem readsActor_iff {groupIds : Option (List ι)} (h : userId = none ∨ groupIds = none)
    (row : RoleAssignment ι) :
    ReadsActor userId groupIds row ↔ (given groupIds <|> userId.map ([·])).all (row.actorId ∈ ·) = true ∧
      (userId.isSome = true → row.type.isUser = true) ∧ ((given groupIds).isSome = true → row.type.isUser = false) := by
  unfold ReadsActor
  rcases h with rfl | rfl
  · cases given groupIds <;> simp [and_comm]
  · rw [show given (none : Option (List ι)) = none from rfl]
    cases userId <;> simp [and_comm]

/-- The target of the row is one that the driver is asked for. -/
def AsksTarget (domainId : Option ι) (projectIds : Option (List ι)) (row : RoleAssignment ι) : Prop :=
  (∀ ids ∈ given projectIds, row.type.isProject = true ∧ row.targetId ∈ ids) ∧
    (given projectIds = none → ∀ d ∈ domainId, row.type.isProject = false ∧ row.targetId = d)

theorem asksTarget_iff (domainId : Option ι) (projectIds : Option (List ι)) (row : RoleAssignment ι) :
    AsksTarget domainId projectIds row ↔ (given projectIds <|> domainId.map ([·])).all (row.targetId ∈ ·) = true ∧
      ((given projectIds).isSome = true → row.type.isProject = true) ∧
      ((given projectIds).isSome = false → domainId.isSome = true → row.type.isProject = false) := by
  unfold AsksTarget
  cases given projectIds <;> cases domainId <;> simp [and_comm]

theorem driver_spec (rows : List (RoleAssignment ι)) {groupIds : Option (List ι)}
    (h : userId = none ∨ groupIds = none) (domainId : Option ι) (projectIds : Option (List ι)) (inherited : Bool) :
    ∃ l : List (RoleAssignment ι),
      driverListRoleAssignments rows userId groupIds domainId projectIds (some inherited) = l.map denormalizeRole ∧
      ∀ row, row ∈ l ↔ row ∈ rows ∧ ReadsActor userId groupIds row ∧ AsksTarget domainId projectIds row ∧
        row.inherited = inherited := by
  refine ⟨_, rfl, fun row => ?_⟩
  have hnot : ¬ (userId.isSome = true ∧ (given groupIds).isSome = true) := by
    rcases h with rfl | rfl
    · simp
    · simp [given]
  rw [mem_filter, Bool.and_eq_true, Bool.and_eq_true, Bool.and_eq_true, Bool.or_eq_true, decide_eq_true_iff,
    decide_eq_true_iff, mem_getAssignmentTypes hnot, readsActor_iff h, asksTarget_iff, all_some,
    decide_eq_true_iff]
  constructor
  · rintro ⟨hrow, ⟨⟨hactor, htarget⟩, huser, hgroup, hproject, hdomain⟩, hinherited⟩
    exact ⟨hrow, ⟨hactor, huser, hgroup⟩, ⟨htarget, hproject, hdomain⟩, hinherited⟩
  · rintro ⟨hrow, ⟨hactor, huser, hgroup⟩, ⟨htarget, hproject, hdomain⟩, hinherited⟩
    exact ⟨hrow, ⟨⟨hactor, htarget⟩, huser, hgroup, hproject, hdomain⟩, hinherited⟩

/-- The row is read for the project and its subtree, or for the domain. -/
def ReadsTarget (dir : Directory ι) (inherited : Option Bool) (projectId : Option ι) (subtreeIds : List ι)
    (domainId : Option ι) (row : RoleAssignment ι) : Prop :=
  if row.inherited then
    inherited ≠ some false ∧ ∀ p ∈ projectId, dir.ActsAsDomain p ∨
      row.type.isProject = false ∧ dir.Owns row.targetId p ∨
      row.type.isProject = true ∧
        (dir.Below p row.targetId ∨ subtreeIds ≠ [] ∧ (row.targetId = p ∨ row.targetId ∈ subtreeIds))
  else
    inherited ≠ some true ∧ (∀ p ∈ projectId, row.type.isProject = true ∧ (row.targetId = p ∨ row.targetId ∈ subtreeIds)) ∧
      (projectId = none → ∀ d ∈ domainId, row.type.isProject = false ∧ row.targetId = d)

section Reading

variable {dir : Directory ι} (hdir : dir.WellFormed)

include hdir

theorem sourceIds_spec {p : Project ι} (hp : p ∈ dir.projects) (subtreeIds : Option (List ι)) :
    ∃ ids, sourceIds dir p.id subtreeIds = some ids ∧
      ∀ x, x ∈ ids ↔ dir.Below p.id x ∨ (given subtreeIds).getD [] ≠ [] ∧ (x = p.id ∨ x ∈ (given subtreeIds).getD []) := by
  obtain ⟨parents, hparents, hmem⟩ := hdir.listProjectParents_spec hp
  refine ⟨_, by rw [sourceIds, hparents, map_some], fun x => ?_⟩
  rw [mem_append, hmem]
  refine or_congr_right ?_
  cases hg : given subtreeIds with
  | none => simp
  | some ids => simp [(mem_given_iff.mp hg).2, or_comm]

variable {userId : Option ι} {groupIds : Option (List ι)}

/-- The inherited rows that are read for a project. -/
theorem driver_inherited_spec (rows : List (RoleAssignment ι))
    (h : userId = none ∨ groupIds = none) {p : Project ι} (hp : p ∈ dir.projects) (ids : List ι) :
    ∃ l : List (RoleAssignment ι),
      (driverListRoleAssignments rows userId groupIds p.domainId none (some true) ++
        if ids = [] then [] else driverListRoleAssignments rows userId groupIds none (some ids) (some true)) =
        l.map denormalizeRole ∧
      ∀ row, row ∈ l ↔ row ∈ rows ∧ ReadsActor userId groupIds row ∧ row.inherited = true ∧
        (dir.ActsAsDomain p.id ∨ row.type.isProject = false ∧ dir.Owns row.targetId p.id ∨
          row.type.isProject = true ∧ row.targetId ∈ ids) := by
  obtain ⟨l, hl, hmem⟩ := driver_spec rows h p.domainId none true
  have hdomain : ∀ row : RoleAssignment ι, AsksTarget p.domainId none row ↔
      dir.ActsAsDomain p.id ∨ row.type.isProject = false ∧ dir.Owns row.targetId p.id := by
    intro row
    rw [AsksTarget, show given (none : Option (List ι)) = none from rfl]
    cases hd : p.domainId with
    | none => simpa using Or.inl ⟨p, hp, rfl, hd⟩
    | some d =>
      have hacts : ¬ dir.ActsAsDomain p.id := by
        rintro ⟨q, hq, hid, hqd⟩
        obtain rfl := hdir.forest.eq_of_id hq hp hid
        rw [hd] at hqd
        cases hqd
      have howns : dir.Owns row.targetId p.id ↔ row.targetId = d :=
        ⟨fun ho => hdir.owns_unique ho ⟨p, hp, rfl, hd⟩, fun e => ⟨p, hp, rfl, by rw [hd, e]⟩⟩
      simp [hacts, howns]
  by_cases hids : ids = []
  · refine ⟨l, by rw [if_pos hids, append_nil, hl], fun row => ?_⟩
    rw [hmem, hdomain, hids]
    simp only [not_mem_nil, and_false, or_false]
    tauto
  · obtain ⟨l', hl', hmem'⟩ := driver_spec rows h none (some ids) true
    have hproject : ∀ row : RoleAssignment ι, AsksTarget none (some ids) row ↔
        row.type.isProject = true ∧ row.targetId ∈ ids := by
      intro row
      rw [AsksTarget, mem_given_iff.mpr ⟨rfl, hids⟩]
      simp
    refine ⟨l ++ l', by rw [if_neg hids, map_append, hl, hl'], fun row => ?_⟩
    rw [mem_append, hmem, hmem', hdomain, hproject]
    tauto

omit hdir in
theorem nonInheritedRefs_spec (dir : Directory ι) (rows : List (RoleAssignment ι)) (inherited : Option Bool)
    (h : userId = none ∨ groupIds = none) (projectId : Option ι)
    (subtreeIds : Option (List ι)) (domainId : Option ι) :
    ∃ l : List (RoleAssignment ι),
      nonInheritedRefs rows inherited userId groupIds projectId subtreeIds domainId = l.map denormalizeRole ∧
      ∀ row, row ∈ l ↔ row ∈ rows ∧ ReadsActor userId groupIds row ∧ row.inherited = false ∧
        ReadsTarget dir inherited projectId ((given subtreeIds).getD []) domainId row := by
  rw [nonInheritedRefs]
  by_cases hi : inherited = some true
  · refine ⟨[], by rw [if_pos hi]; rfl, fun row => ⟨fun hrow => (nomatch hrow), ?_⟩⟩
    rintro ⟨-, -, hrow, hreads⟩
    rw [ReadsTarget, if_neg (by rw [hrow]; exact Bool.false_ne_true)] at hreads
    exact absurd hi hreads.1
  · obtain ⟨l, hl, hmem⟩ := driver_spec rows h domainId
      (projectId.map fun projectId => (given subtreeIds).getD [] ++ [projectId]) false
    refine ⟨l, by rw [if_neg hi, hl], fun row => ?_⟩
    rw [hmem]
    refine and_congr_right fun _ => and_congr_right fun _ => ?_
    rw [and_comm]
    refine and_congr_right fun hrow => ?_
    rw [ReadsTarget, if_neg (by rw [hrow]; exact Bool.false_ne_true), AsksTarget]
    cases projectId with
    | none => simp [hi, given]
    | some p => simp [hi, given, or_comm]

theorem inheritedRefs_spec (rows : List (RoleAssignment ι)) (inherited : Option Bool)
    (h : userId = none ∨ groupIds = none) {projectId : Option ι}
    (hproject : ∀ p ∈ projectId, ∃ project ∈ dir.projects, project.id = p) (subtreeIds : Option (List ι))
    (domainId : Option ι) :
    ∃ l : List (RoleAssignment ι),
      inheritedRefs dir rows inherited userId groupIds projectId subtreeIds = some (l.map denormalizeRole) ∧
      ∀ row, row ∈ l ↔ row ∈ rows ∧ ReadsActor userId groupIds row ∧ row.inherited = true ∧
        ReadsTarget dir inherited projectId ((given subtreeIds).getD []) domainId row := by
  unfold inheritedRefs
  by_cases hi : inherited = some false
  · refine ⟨[], by rw [if_pos hi]; rfl, fun row => ⟨fun hrow => (nomatch hrow), ?_⟩⟩
    rintro ⟨-, -, hrow, hreads⟩
    rw [ReadsTarget, if_pos hrow] at hreads
    exact absurd hi hreads.1
  · rw [if_neg hi]
    cases projectId with
    | none =>
      obtain ⟨l, hl, hmem⟩ := driver_spec rows h none none true
      refine ⟨l, by rw [hl], fun row => ?_⟩
      rw [hmem]
      refine and_congr_right fun _ => and_congr_right fun _ => ?_
      rw [and_comm]
      refine and_congr_right fun hrow => ?_
      rw [ReadsTarget, if_pos hrow, AsksTarget]
      simp [hi, given]
    | some p =>
      obtain ⟨p, hp, rfl⟩ := hproject p rfl
      obtain ⟨ids, hids, hmemIds⟩ := sourceIds_spec hdir hp subtreeIds
      obtain ⟨l, hl, hmem⟩ := driver_inherited_spec hdir rows h hp ids
      refine ⟨l, ?_, fun row => ?_⟩
      · dsimp only
        rw [← hl, hdir.getProject_eq hp, bind_some, hids, map_some]
      · rw [hmem]
        refine and_congr_right fun _ => and_congr_right fun _ => and_congr_right fun hrow => ?_
        rw [ReadsTarget, if_pos hrow, hmemIds]
        simp [hi]

theorem listRoleAssignmentsForActor_spec (rows : List (RoleAssignment ι)) (inherited : Option Bool) (userId : Option ι)
    (groupIds : Option (List ι)) (h : userId = none ∨ groupIds = none) {projectId : Option ι}
    (hproject : ∀ p ∈ projectId, ∃ project ∈ dir.projects, project.id = p) (subtreeIds : Option (List ι))
    (domainId : Option ι) :
    ∃ l : List (RoleAssignment ι),
      listRoleAssignmentsForActor dir rows inherited userId groupIds projectId subtreeIds domainId =
        some (l.map denormalizeRole) ∧
      ∀ row, row ∈ l ↔ row ∈ rows ∧ ReadsActor userId groupIds row ∧
        ReadsTarget dir inherited projectId ((given subtreeIds).getD []) domainId row := by
  obtain ⟨l, hl, hmem⟩ := nonInheritedRefs_spec dir rows inherited h projectId subtreeIds domainId
  obtain ⟨l', hl', hmem'⟩ := inheritedRefs_spec hdir rows inherited h hproject subtreeIds domainId
  refine ⟨l ++ l', ?_, fun row => ?_⟩
  · rw [listRoleAssignmentsForActor, hl, hl', map_append, map_some]
  · rw [mem_append, hmem, hmem']
    cases row.inherited <;> simp

end Reading

/-! ## 4. The expansions -/

/-- The triple of an assignment that has a user and a target. -/
def Ref.triple (ref : Ref ι) : Option (Triple ι) :=
  ref.userId.bind fun userId =>
    (ref.projectId.map Target.project <|> ref.domainId.map Target.domain).map fun target =>
      ⟨userId, ref.roleId, target⟩

/-- The triples of a listing. -/
def triples (refs : List (Ref ι)) : List (Triple ι) := refs.filterMap Ref.triple

/-- All assignments have triples, and these are the ones with `Q`. -/
def Yields (refs : List (Ref ι)) (Q : Triple ι → Prop) : Prop :=
  (∀ ref ∈ refs, ∃ t, ref.triple = some t ∧ Q t) ∧ ∀ t, Q t → ∃ ref ∈ refs, ref.triple = some t

variable {refs : List (Ref ι)} {Q : Triple ι → Prop}

omit [DecidableEq ι] in
theorem Yields.mem_triples (h : Yields refs Q) (t : Triple ι) :
    t ∈ triples refs ↔ Q t := by
  rw [triples, mem_filterMap]
  constructor
  · rintro ⟨ref, href, ht⟩
    obtain ⟨t', ht', hq⟩ := h.1 ref href
    rw [ht] at ht'
    cases ht'
    exact hq
  · exact h.2 t

omit [DecidableEq ι] in
theorem Yields.congr {P Q : Triple ι → Prop} (h : Yields refs P) (hpq : ∀ t, P t ↔ Q t) :
    Yields refs Q := by
  rwa [← funext fun t => propext (hpq t)]

omit [DecidableEq ι] in
theorem Yields.append {refs refs' : List (Ref ι)} {P Q : Triple ι → Prop} (h : Yields refs P) (h' : Yields refs' Q) :
    Yields (refs ++ refs') fun t => P t ∨ Q t := by
  constructor
  · intro ref href
    rcases mem_append.mp href with href | href
    · obtain ⟨t, ht, hp⟩ := h.1 ref href
      exact ⟨t, ht, Or.inl hp⟩
    · obtain ⟨t, ht, hq⟩ := h'.1 ref href
      exact ⟨t, ht, Or.inr hq⟩
  · rintro t (hp | hq)
    · obtain ⟨ref, href, ht⟩ := h.2 t hp
      exact ⟨ref, mem_append_left _ href, ht⟩
    · obtain ⟨ref, href, ht⟩ := h'.2 t hq
      exact ⟨ref, mem_append_right _ href, ht⟩

omit [DecidableEq ι] in
theorem yields_map {β : Type*} {l : List β} {f : β → Ref ι} {g : β → Triple ι} (h : ∀ b ∈ l, (f b).triple = some (g b)) :
    Yields (l.map f) fun t => ∃ b ∈ l, g b = t := by
  constructor
  · intro ref href
    obtain ⟨b, hb, rfl⟩ := List.mem_map.mp href
    exact ⟨g b, h b hb, b, hb, rfl⟩
  · rintro t ⟨b, hb, rfl⟩
    exact ⟨f b, List.mem_map_of_mem hb, h b hb⟩

/-- The users to whom the row is expanded. -/
def RoleAssignment.ExpandsToUser (dir : Directory ι) (userId : Option ι) (row : RoleAssignment ι) (u : ι) : Prop :=
  if row.type.isUser then row.actorId = u
  else
    match userId with
    | some userId => userId = u
    | none => (u, row.actorId) ∈ dir.memberships

variable {dir : Directory ι} {row : RoleAssignment ι}

omit [DecidableEq ι] in
theorem expandsToUser_of_isUser {u : ι}
    (h : row.type.isUser = true) : row.ExpandsToUser dir userId u ↔ row.actorId = u := by
  unfold RoleAssignment.ExpandsToUser
  rw [if_pos h]

/-- The projects to which the row is expanded when it is inherited. -/
def RoleAssignment.ExpandsToProject (dir : Directory ι) (projectId : Option ι) (subtreeIds : List ι)
    (row : RoleAssignment ι) (q : ι) : Prop :=
  match projectId with
  | some p =>
    if row.type.isProject = true ∧ subtreeIds ≠ [] ∧ (row.targetId = p ∨ row.targetId ∈ subtreeIds) then
      dir.Below q row.targetId
    else q = p ∨ q ∈ subtreeIds
  | none => if row.type.isProject then dir.Below q row.targetId else dir.Owns row.targetId q

/-- The targets to which the row is expanded. -/
def RoleAssignment.ExpandsToTarget (dir : Directory ι) (projectId : Option ι) (subtreeIds : List ι)
    (row : RoleAssignment ι) (target : Target ι) : Prop :=
  if row.inherited then ∃ q, target = .project q ∧ row.ExpandsToProject dir projectId subtreeIds q
  else target = row.target

omit [DecidableEq ι] in
theorem triple_createInheritedAssignment {ref : Ref ι} {u : ι} (hu : ref.userId = some u) (q : ι) :
    (createInheritedAssignment ref q).triple = some ⟨u, ref.roleId, .project q⟩ := by
  unfold createInheritedAssignment
  cases ref.projectId <;> simp [Ref.triple, hu]

omit [DecidableEq ι] in
theorem triple_createGroupAssignment (h : row.type.isUser = false) (u : ι) :
    (createGroupAssignment (denormalizeRole row) u).triple = some ⟨u, row.roleId, row.target⟩ := by
  rcases row with ⟨_ | _ | _ | _, actorId, targetId, roleId, inherited⟩
  · cases h
  · rfl
  · cases h
  · rfl

omit [DecidableEq ι] in
theorem triple_denormalizeRole (h : row.type.isUser = true) :
    (denormalizeRole row).triple = some ⟨row.actorId, row.roleId, row.target⟩ := by
  rcases row with ⟨_ | _ | _ | _, actorId, targetId, roleId, inherited⟩
  · rfl
  · cases h
  · rfl
  · cases h

omit [DecidableEq ι] in
theorem denormalizeRole_fields (row : RoleAssignment ι) :
    (denormalizeRole row).userId = (if row.type.isUser then some row.actorId else none) ∧
      (denormalizeRole row).groupId = (if row.type.isUser then none else some row.actorId) ∧
      (denormalizeRole row).roleId = row.roleId ∧ (denormalizeRole row).inheritedToProjects = row.inherited := by
  rcases row with ⟨_ | _ | _ | _, actorId, targetId, roleId, inherited⟩
  all_goals exact ⟨rfl, rfl, rfl, rfl⟩

section Expanding

variable {dir : Directory ι} (hdir : dir.WellFormed)

include hdir

variable {row : RoleAssignment ι}

theorem inheritingProjects_spec (hrow : row.WellFormed dir) (projectId : Option ι)
    (subtreeIds : Option (List ι)) :
    ∃ ids, inheritingProjects dir (denormalizeRole row) projectId subtreeIds = some ids ∧
      ∀ q, q ∈ ids ↔ row.ExpandsToProject dir projectId ((given subtreeIds).getD []) q := by
  obtain ⟨p, hp, hid, hkind⟩ := hrow.target
  obtain ⟨below, hbelow, hmemBelow⟩ := hdir.listProjectsInSubtree_spec hp
  obtain ⟨owned, howned, hmemOwned⟩ := hdir.listProjectsInDomain_spec hp
  rw [hid] at hbelow hmemBelow howned hmemOwned
  have hsome : (given subtreeIds).isSome = true ↔ (given subtreeIds).getD [] ≠ [] := by
    cases hg : given subtreeIds with
    | none => simp
    | some ids => simpa using (mem_given_iff.mp hg).2
  unfold inheritingProjects RoleAssignment.ExpandsToProject
  cases projectId with
  | none =>
    rcases row with ⟨_ | _ | _ | _, actorId, targetId, roleId, inherited⟩
    · exact ⟨_, congrArg (Option.map (List.map Project.id)) hbelow, hmemBelow⟩
    · exact ⟨_, congrArg (Option.map (List.map Project.id)) hbelow, hmemBelow⟩
    · exact ⟨_, congrArg (Option.map (List.map Project.id)) howned, hmemOwned⟩
    · exact ⟨_, congrArg (Option.map (List.map Project.id)) howned, hmemOwned⟩
  | some p =>
    have hproject : ∃ ids, (if (given subtreeIds).isSome ∧ row.targetId ∈ p :: (given subtreeIds).getD [] then
          (dir.listProjectsInSubtree row.targetId).map (·.map Project.id)
        else some (p :: (given subtreeIds).getD [])) = some ids ∧ ∀ q, q ∈ ids ↔
          if (given subtreeIds).getD [] ≠ [] ∧ (row.targetId = p ∨ row.targetId ∈ (given subtreeIds).getD []) then
            dir.Below q row.targetId
          else q = p ∨ q ∈ (given subtreeIds).getD [] := by
      simp only [hsome, mem_cons]
      split
      · exact ⟨_, congrArg (Option.map (List.map Project.id)) hbelow, hmemBelow⟩
      · exact ⟨_, rfl, fun q => mem_cons⟩
    rcases row with ⟨_ | _ | _ | _, actorId, targetId, roleId, inherited⟩
    · simpa [denormalizeRole, AssignmentType.isProject] using hproject
    · simpa [denormalizeRole, AssignmentType.isProject] using hproject
    · exact ⟨_, rfl, fun q => by simp [AssignmentType.isProject]⟩
    · exact ⟨_, rfl, fun q => by simp [AssignmentType.isProject]⟩

omit hdir in
theorem expandGroupAssignment_spec (hrow : row.WellFormed dir) (hgroup : row.type.isUser = false)
    (ref : Ref ι) (userId : Option ι) :
    ∃ users : List ι, expandGroupAssignment dir ref row.actorId userId = some (users.map (createGroupAssignment ref)) ∧
      ∀ u, u ∈ users ↔ row.ExpandsToUser dir userId u := by
  unfold expandGroupAssignment RoleAssignment.ExpandsToUser
  rw [hgroup]
  cases userId with
  | some userId => exact ⟨[userId], rfl, fun u => by simp [eq_comm]⟩
  | none =>
    have hmem := hrow.actor
    rw [hgroup, if_neg Bool.false_ne_true] at hmem
    refine ⟨(dir.memberships.filter (·.2 = row.actorId)).map Prod.fst, ?_, fun u => ?_⟩
    · dsimp only
      rw [Directory.listUsersInGroup, if_pos hmem, map_some]
    · simp

theorem expandIndirectAssignment_spec (hrow : row.WellFormed dir) (userId projectId : Option ι)
    (subtreeIds : Option (List ι)) :
    ∃ refs, expandIndirectAssignment dir (denormalizeRole row) userId projectId subtreeIds = some refs ∧
      Yields refs fun t => row.ExpandsToUser dir userId t.userId ∧ t.roleId = row.roleId ∧
        row.ExpandsToTarget dir projectId ((given subtreeIds).getD []) t.target := by
  obtain ⟨huserId, hgroupId, hroleId, hinherited⟩ := denormalizeRole_fields row
  unfold expandIndirectAssignment RoleAssignment.ExpandsToTarget
  rw [hinherited]
  cases hi : row.inherited with
  | false =>
    rw [if_neg Bool.false_ne_true, hgroupId]
    simp only [Bool.false_eq_true, if_false]
    cases htype : row.type.isUser with
    | true =>
      refine ⟨[denormalizeRole row], rfl, ?_⟩
      refine (yields_map (l := [()]) (f := fun _ => denormalizeRole row)
        (fun _ _ => triple_denormalizeRole htype)).congr fun t => ?_
      rw [expandsToUser_of_isUser htype]
      constructor
      · rintro ⟨-, -, rfl⟩
        exact ⟨rfl, rfl, rfl⟩
      · rintro ⟨huser, hrole, htarget⟩
        exact ⟨(), mem_singleton_self _, Triple.ext huser hrole.symm htarget.symm⟩
    | false =>
      obtain ⟨users, husers, hmem⟩ := expandGroupAssignment_spec hrow htype (denormalizeRole row) userId
      refine ⟨_, husers, (yields_map fun u _ => triple_createGroupAssignment htype u).congr fun t => ?_⟩
      rw [← hmem]
      constructor
      · rintro ⟨u, hu, rfl⟩
        exact ⟨hu, rfl, rfl⟩
      · rintro ⟨hu, hrole, htarget⟩
        exact ⟨t.userId, hu, Triple.ext rfl hrole.symm htarget.symm⟩
  | true =>
    obtain ⟨ids, hids, hmemIds⟩ := inheritingProjects_spec hdir hrow projectId subtreeIds
    rw [if_pos rfl, expandInheritedAssignment, hids, bind_some, hgroupId]
    simp only [if_true]
    cases htype : row.type.isUser with
    | true =>
      rw [htype, if_pos rfl] at huserId
      refine ⟨_, rfl, (yields_map fun q _ => triple_createInheritedAssignment huserId q).congr fun t => ?_⟩
      rw [expandsToUser_of_isUser htype, hroleId]
      constructor
      · rintro ⟨q, hq, rfl⟩
        exact ⟨rfl, rfl, q, rfl, (hmemIds q).mp hq⟩
      · rintro ⟨huser, hrole, q, htarget, hq⟩
        exact ⟨q, (hmemIds q).mpr hq, Triple.ext huser hrole.symm htarget.symm⟩
    | false =>
      obtain ⟨users, husers, hmem⟩ := expandGroupAssignment_spec hrow htype (denormalizeRole row) userId
      refine ⟨(users ×ˢ ids).map fun b => createInheritedAssignment (createGroupAssignment (denormalizeRole row) b.1) b.2,
        ?_, ?_⟩
      · simp only [Bool.false_eq_true, if_false]
        rw [husers, map_some, flatMap_map, show users ×ˢ ids = users.flatMap fun u => ids.map (Prod.mk u) from rfl,
          map_flatMap]
        simp only [List.map_map, Function.comp_def]
      · refine (yields_map fun b _ => triple_createInheritedAssignment rfl b.2).congr fun t => ?_
        rw [← hmem]
        constructor
        · rintro ⟨b, hb, rfl⟩
          obtain ⟨hu, hq⟩ := mem_product.mp hb
          exact ⟨hu, hroleId, b.2, rfl, (hmemIds b.2).mp hq⟩
        · rintro ⟨hu, hrole, q, htarget, hq⟩
          exact ⟨(t.userId, q), mem_product.mpr ⟨hu, (hmemIds q).mpr hq⟩, Triple.ext rfl (hroleId.trans hrole.symm) htarget.symm⟩

theorem expandAll_spec (userId projectId : Option ι) (subtreeIds : Option (List ι)) (rows : List (RoleAssignment ι))
    (hrows : ∀ row ∈ rows, row.WellFormed dir) :
    ∃ refs, expandAll dir userId projectId subtreeIds (rows.map denormalizeRole) = some refs ∧
      Yields refs fun t => ∃ row ∈ rows, row.ExpandsToUser dir userId t.userId ∧ t.roleId = row.roleId ∧
        row.ExpandsToTarget dir projectId ((given subtreeIds).getD []) t.target := by
  induction rows with
  | nil => exact ⟨[], rfl, nofun, fun _ ⟨_, h, _⟩ => nomatch h⟩
  | cons row rows ih =>
    obtain ⟨refs, hrefs, hyields⟩ :=
      expandIndirectAssignment_spec hdir (hrows row mem_cons_self) userId projectId subtreeIds
    obtain ⟨refs', hrefs', hyields'⟩ := ih fun row hrow => hrows row (mem_cons_of_mem _ hrow)
    refine ⟨refs ++ refs', ?_, (hyields.append hyields').congr fun t => ?_⟩
    · rw [map_cons, expandAll, hrefs, bind_some, hrefs', map_some]
    · simp only [mem_cons, exists_eq_or_imp]

end Expanding

/-! ## 5. Implied roles and domain roles -/

omit [DecidableEq ι] in
theorem roleId_of_triple {ref : Ref ι} {t : Triple ι} (h : ref.triple = some t) : ref.roleId = t.roleId := by
  obtain ⟨u, -, h⟩ := bind_eq_some_iff.mp h
  obtain ⟨target, -, rfl⟩ := map_eq_some_iff.mp h
  rfl

omit [DecidableEq ι] in
theorem triple_makeImpliedRefCopy {ref : Ref ι} {t : Triple ι} (h : ref.triple = some t) (roleId : ι) :
    (makeImpliedRefCopy ref roleId).triple = some { t with roleId := roleId } := by
  obtain ⟨u, hu, h⟩ := bind_eq_some_iff.mp h
  obtain ⟨target, htarget, rfl⟩ := map_eq_some_iff.mp h
  exact bind_eq_some_iff.mpr ⟨u, hu, map_eq_some_iff.mpr ⟨target, htarget, rfl⟩⟩

variable {ref ref' : Ref ι}

theorem mem_impliedRefs :
    ref' ∈ impliedRefs dir ref ↔ ∃ roleId, (ref.roleId, roleId) ∈ dir.implications ∧ makeImpliedRefCopy ref roleId = ref' := by
  simp [impliedRefs, Directory.listImpliedRoles]

/-- The copies that the rules can make of an assignment. -/
def impliedCopies (dir : Directory ι) (ref : Ref ι) : List (Ref ι) :=
  dir.implications.map fun i =>
    { ref with roleId := i.2, indirect := { ref.indirect with roleId := some i.1 } }

theorem mem_impliedCopies (h : ref' ∈ impliedRefs dir ref) :
    ref' ∈ impliedCopies dir ref := by
  obtain ⟨roleId, hmem, rfl⟩ := mem_impliedRefs.mp h
  exact List.mem_map.mpr ⟨_, hmem, rfl⟩

theorem impliedCopies_closed {ref copy ref' : Ref ι} (hcopy : copy ∈ impliedCopies dir ref)
    (h : ref' ∈ impliedRefs dir copy) : ref' ∈ impliedCopies dir ref := by
  obtain ⟨i, -, rfl⟩ := List.mem_map.mp hcopy
  obtain ⟨roleId, hmem, rfl⟩ := mem_impliedRefs.mp h
  exact List.mem_map.mpr ⟨_, hmem, rfl⟩

variable {conf : AssignmentConf}

/-- What is reached from an assignment is the same assignment with an implied role. -/
theorem triple_of_reached (hinfer : conf.inferRoles = true)
    (h : ReflTransGen (fun a b => b ∈ impliedRefs dir a) ref ref') {t : Triple ι} (ht : ref.triple = some t) :
    ref'.triple = some { t with roleId := ref'.roleId } ∧ ReflTransGen (dir.Implies conf) t.roleId ref'.roleId := by
  induction h with
  | refl =>
    rw [roleId_of_triple ht]
    exact ⟨ht, .refl⟩
  | tail _ hstep ih =>
    obtain ⟨roleId, hmem, rfl⟩ := mem_impliedRefs.mp hstep
    exact ⟨triple_makeImpliedRefCopy ih.1 roleId, ih.2.tail ⟨hinfer, hmem⟩⟩

theorem exists_reached (ref : Ref ι) {roleId : ι}
    (h : ReflTransGen (dir.Implies conf) ref.roleId roleId) :
    ∃ ref', ReflTransGen (fun a b => b ∈ impliedRefs dir a) ref ref' ∧ ref'.roleId = roleId := by
  induction h with
  | refl => exact ⟨ref, .refl, rfl⟩
  | tail _ hstep ih =>
    obtain ⟨ref', hreach, rfl⟩ := ih
    exact ⟨makeImpliedRefCopy ref' _, hreach.tail (mem_impliedRefs.mpr ⟨_, hstep.2, rfl⟩), rfl⟩

/-- **The loop ends.** It keeps the list it is given and adds what is reached from it. -/
theorem addImpliedRoles_reached (dir : Directory ι) (hinfer : conf.inferRoles = true)
    (refs : List (Ref ι)) :
    ∃ n refs', (∀ m ≥ n, addImpliedRoles dir conf m refs = some refs') ∧ refs <+: refs' ∧
      ∀ ref', ref' ∈ refs' ↔ ∃ ref ∈ refs, ReflTransGen (fun a b => b ∈ impliedRefs dir a) ref ref' := by
  -- a copy carries one rule and the rest of an assignment that was given
  have hclosed : ∀ x ∈ (refs ++ refs.flatMap (impliedCopies dir)).toFinset, ∀ y ∈ impliedRefs dir x,
      y ∈ (refs ++ refs.flatMap (impliedCopies dir)).toFinset := by
    intro x hx y hy
    rw [List.mem_toFinset, mem_append] at hx ⊢
    refine Or.inr (mem_flatMap.mpr ?_)
    rcases hx with hx | hx
    · exact ⟨x, hx, mem_impliedCopies hy⟩
    · obtain ⟨ref, href, hx⟩ := mem_flatMap.mp hx
      exact ⟨ref, href, impliedCopies_closed hx hy⟩
  obtain ⟨n, refs', hrun, hmem⟩ := worklist_spec hclosed fun x hx => List.mem_toFinset.mpr (mem_append_left _ hx)
  refine ⟨n, refs', fun m hm => ?_, worklist_prefix hrun, hmem⟩
  unfold addImpliedRoles
  rw [if_pos hinfer]
  exact worklist_mono hrun hm

theorem addImpliedRoles_spec (dir : Directory ι) (conf : AssignmentConf)
    (h : Yields refs Q) :
    ∃ n refs', (∀ m ≥ n, addImpliedRoles dir conf m refs = some refs') ∧
      Yields refs' fun t => ∃ roleId, Q { t with roleId := roleId } ∧ ReflTransGen (dir.Implies conf) roleId t.roleId := by
  cases hinfer : conf.inferRoles with
  | false =>
    refine ⟨0, refs, fun m _ => by rw [addImpliedRoles, hinfer, if_neg Bool.false_ne_true],
      h.congr fun t => ⟨fun hq => ⟨t.roleId, hq, .refl⟩, ?_⟩⟩
    rintro ⟨roleId, hq, hclosure⟩
    rcases ReflTransGen.cases_tail_iff _ _ _ |>.mp hclosure with heq | ⟨_, -, hstep⟩
    · subst heq
      exact hq
    · exact absurd hstep.1 (by rw [hinfer]; exact Bool.false_ne_true)
  | true =>
    obtain ⟨n, refs', hrun, -, hmem⟩ := addImpliedRoles_reached dir hinfer refs
    refine ⟨n, refs', hrun, fun ref href => ?_, ?_⟩
    · obtain ⟨start, hstart, hreach⟩ := (hmem ref).mp href
      obtain ⟨t, ht, hq⟩ := h.1 start hstart
      obtain ⟨htriple, hclosure⟩ := triple_of_reached hinfer hreach ht
      exact ⟨_, htriple, t.roleId, hq, hclosure⟩
    · rintro t ⟨roleId, hq, hclosure⟩
      obtain ⟨start, hstart, ht⟩ := h.2 _ hq
      have hstartRole : start.roleId = roleId := roleId_of_triple ht
      rw [← hstartRole] at hclosure
      obtain ⟨ref, hreach, hrole⟩ := exists_reached start hclosure
      refine ⟨ref, (hmem ref).mpr ⟨start, hstart, hreach⟩, ?_⟩
      rw [(triple_of_reached hinfer hreach ht).1, hrole]

/-- The user or the group of an assignment. -/
def Ref.actor (ref : Ref ι) : Option ι × Option ι := (ref.userId, ref.groupId)

/-- The project or the domain of an assignment. -/
def Ref.target (ref : Ref ι) : Option ι × Option ι := (ref.projectId, ref.domainId)

theorem actor_target_of_reached
    (h : ReflTransGen (fun a b => b ∈ impliedRefs dir a) ref ref') :
    ref'.actor = ref.actor ∧ ref'.target = ref.target ∧
      ReflTransGen (fun prior implied => (prior, implied) ∈ dir.implications) ref.roleId ref'.roleId := by
  induction h with
  | refl => exact ⟨rfl, rfl, .refl⟩
  | tail _ hstep ih =>
    obtain ⟨roleId, hmem, rfl⟩ := mem_impliedRefs.mp hstep
    exact ⟨ih.1, ih.2.1, ih.2.2.tail hmem⟩

/-- **The roles of an actor on a target are those that its roles imply**, however the
implications turn back on themselves. -/
theorem addImpliedRoles_closure (dir : Directory ι) {conf : AssignmentConf} (hinfer : conf.inferRoles = true)
    (refs : List (Ref ι)) :
    ∃ n refs', (∀ m ≥ n, addImpliedRoles dir conf m refs = some refs') ∧ refs <+: refs' ∧
      ∀ (actor target : Option ι × Option ι) (roleId : ι),
        (∃ ref' ∈ refs', ref'.actor = actor ∧ ref'.target = target ∧ ref'.roleId = roleId) ↔
          ∃ ref ∈ refs, ref.actor = actor ∧ ref.target = target ∧
            ReflTransGen (fun prior implied => (prior, implied) ∈ dir.implications) ref.roleId roleId := by
  obtain ⟨n, refs', hrun, hprefix, hmem⟩ := addImpliedRoles_reached dir hinfer refs
  refine ⟨n, refs', hrun, hprefix, fun actor target roleId => ⟨?_, ?_⟩⟩
  · rintro ⟨ref', href', rfl, rfl, rfl⟩
    obtain ⟨ref, href, hreach⟩ := (hmem ref').mp href'
    obtain ⟨hactor, htarget, hclosure⟩ := actor_target_of_reached hreach
    exact ⟨ref, href, hactor.symm, htarget.symm, hclosure⟩
  · rintro ⟨ref, href, rfl, rfl, hclosure⟩
    have hclosure' : ReflTransGen (dir.Implies conf) ref.roleId roleId :=
      ReflTransGen.mono (fun _ _ h => ⟨hinfer, h⟩) _ _ hclosure
    obtain ⟨ref', hreach, hrole⟩ := exists_reached ref hclosure'
    obtain ⟨hactor, htarget, -⟩ := actor_target_of_reached hreach
    exact ⟨ref', (hmem ref').mpr ⟨ref, href, hreach⟩, hactor, htarget, hrole⟩

/-- Roles `1` and `2` imply each other. -/
theorem addImpliedRoles_closure_cycle :
    ∃ n refs', (∀ m ≥ n, addImpliedRoles (⟨[], [], [], [], [], [(1, 2), (2, 1)]⟩ : Directory ℕ) ⟨false, true⟩ m
        [{ userId := some 5, projectId := some 7, roleId := 1, inheritedToProjects := false }] = some refs') ∧
      [{ userId := some 5, projectId := some 7, roleId := 1, inheritedToProjects := false }] <+: refs' ∧
      ∀ (actor target : Option ℕ × Option ℕ) (roleId : ℕ),
        (∃ ref' ∈ refs', ref'.actor = actor ∧ ref'.target = target ∧ ref'.roleId = roleId) ↔
          ∃ ref ∈ [({ userId := some 5, projectId := some 7, roleId := 1, inheritedToProjects := false } : Ref ℕ)],
            ref.actor = actor ∧ ref.target = target ∧
            ReflTransGen (fun prior implied => (prior, implied) ∈ [(1, 2), (2, 1)]) ref.roleId roleId :=
  addImpliedRoles_closure ⟨[], [], [], [], [], [(1, 2), (2, 1)]⟩ rfl _

omit [DecidableEq ι] in
theorem Yields.restrict (refs' : List (Ref ι)) (h : Yields refs Q) (P : ι → Prop)
    (hmem : ∀ ref, ref ∈ refs' ↔ ref ∈ refs ∧ P ref.roleId) : Yields refs' fun t => Q t ∧ P t.roleId := by
  constructor
  · intro ref href
    obtain ⟨href, hp⟩ := (hmem ref).mp href
    obtain ⟨t, ht, hq⟩ := h.1 ref href
    rw [roleId_of_triple ht] at hp
    exact ⟨t, ht, hq, hp⟩
  · rintro t ⟨hq, hp⟩
    obtain ⟨ref, href, ht⟩ := h.2 t hq
    rw [← roleId_of_triple ht] at hp
    exact ⟨ref, (hmem ref).mpr ⟨href, hp⟩, ht⟩

theorem Directory.WellFormed.getRole_eq (hdir : dir.WellFormed) {role : Role ι}
    (hrole : role ∈ dir.roles) : dir.getRole role.id = some role := by
  unfold Directory.getRole
  cases hf : dir.roles.find? fun r => r.id = role.id with
  | none =>
    have hne := find?_eq_none.mp hf role hrole
    simp at hne
  | some r =>
    have hid : r.id = role.id := by simpa using find?_some hf
    exact congrArg some (inj_on_of_nodup_map hdir.roles (mem_of_find?_eq_some hf) hrole hid)

theorem stripDomainRoles_spec (hdir : dir.WellFormed) (refs : List (Ref ι))
    (hroles : ∀ ref ∈ refs, ∃ role ∈ dir.roles, role.id = ref.roleId) :
    ∃ refs', stripDomainRoles dir refs = some refs' ∧ ∀ ref, ref ∈ refs' ↔ ref ∈ refs ∧ dir.Lists true ref.roleId := by
  induction refs with
  | nil => exact ⟨[], rfl, fun ref => by simp⟩
  | cons ref refs ih =>
    obtain ⟨role, hrole, hid⟩ := hroles ref mem_cons_self
    obtain ⟨refs', hrefs', hmem⟩ := ih fun ref href => hroles ref (mem_cons_of_mem _ href)
    refine ⟨_, by rw [stripDomainRoles, ← hid, hdir.getRole_eq hrole, bind_some, hrefs', map_some],
      fun ref' => ?_⟩
    have hlists : dir.Lists true ref.roleId ↔ role.domainId = none := by
      rw [← hid]
      constructor
      · intro h
        obtain ⟨role', hrole', hid', hdomain⟩ := h rfl
        rwa [inj_on_of_nodup_map hdir.roles hrole' hrole hid'] at hdomain
      · exact fun hdomain _ => ⟨role, hrole, rfl, hdomain⟩
    split
    · rw [mem_cons, mem_cons, hmem]
      constructor
      · rintro (rfl | ⟨href, h⟩)
        · exact ⟨Or.inl rfl, hlists.mpr ‹_›⟩
        · exact ⟨Or.inr href, h⟩
      · rintro ⟨rfl | href, h⟩
        · exact Or.inl rfl
        · exact Or.inr ⟨href, h⟩
    · rw [mem_cons, hmem]
      constructor
      · exact fun ⟨href, h⟩ => ⟨Or.inr href, h⟩
      · rintro ⟨rfl | href, h⟩
        · exact absurd (hlists.mp h) ‹_›
        · exact ⟨href, h⟩

/-! ## 6. The listing -/

/-- The row is read for the filters and expanded to the user and the target. -/
def Reaches (dir : Directory ι) (conf : AssignmentConf) (filters : Filters ι) (subtreeIds : List ι)
    (row : RoleAssignment ι) (u : ι) (target : Target ι) : Prop :=
  (ReadsActor filters.userId none row ∨
      ∃ userId ∈ filters.userId, row.type.isUser = false ∧ (userId, row.actorId) ∈ dir.memberships) ∧
    ReadsTarget dir (if filters.domainId.isSome then some false else if conf.osInherit then none else some false)
      filters.projectId subtreeIds filters.domainId row ∧
    row.ExpandsToUser dir filters.userId u ∧ row.ExpandsToTarget dir filters.projectId subtreeIds target

section Listing

variable {dir : Directory ι} (hdir : dir.WellFormed) {rows : List (RoleAssignment ι)}
  (hrows : ∀ row ∈ rows, row.WellFormed dir) (conf : AssignmentConf) {filters : Filters ι}
  (hfilters : filters.WellFormed dir)

include hdir hrows hfilters

omit hrows in
theorem listGroupRefs_spec (inherited : Option Bool) (subtreeIds : Option (List ι)) :
    ∃ l : List (RoleAssignment ι), listGroupRefs dir rows inherited filters subtreeIds = some (l.map denormalizeRole) ∧
      ∀ row, row ∈ l ↔ row ∈ rows ∧
        (∃ userId ∈ filters.userId, row.type.isUser = false ∧ (userId, row.actorId) ∈ dir.memberships) ∧
        ReadsTarget dir inherited filters.projectId ((given subtreeIds).getD []) filters.domainId row := by
  unfold listGroupRefs
  cases hu : filters.userId with
  | none => exact ⟨[], rfl, fun row => by simp⟩
  | some userId =>
    dsimp only
    rw [Directory.getGroupIdsForUserId, if_pos (hfilters.user userId hu), bind_some]
    by_cases hnil : (dir.memberships.filter (·.1 = userId)).map Prod.snd = []
    · refine ⟨[], by rw [if_pos hnil]; rfl, fun row => ⟨fun h => (nomatch h), ?_⟩⟩
      rintro ⟨-, ⟨u, hu', -, hmem⟩, -⟩
      cases mem_some.mp hu'
      have hmem' : row.actorId ∈ (dir.memberships.filter (·.1 = userId)).map Prod.snd :=
        List.mem_map.mpr ⟨_, mem_filter.mpr ⟨hmem, decide_eq_true rfl⟩, rfl⟩
      rw [hnil] at hmem'
      cases hmem'
    · obtain ⟨l, hl, hmem⟩ := listRoleAssignmentsForActor_spec hdir rows inherited none
        (some ((dir.memberships.filter (·.1 = userId)).map Prod.snd)) (Or.inl rfl) hfilters.project subtreeIds filters.domainId
      refine ⟨l, by rw [if_neg hnil, hl], fun row => ?_⟩
      rw [hmem, ReadsActor, mem_given_iff.mpr ⟨rfl, hnil⟩]
      simp

theorem expanded_spec (inherited : Option Bool) (subtreeIds : Option (List ι)) :
    ∃ direct group refs, listRoleAssignmentsForActor dir rows inherited filters.userId none filters.projectId subtreeIds
        filters.domainId = some direct ∧ listGroupRefs dir rows inherited filters subtreeIds = some group ∧
      expandAll dir filters.userId filters.projectId subtreeIds (direct ++ group) = some refs ∧
      Yields refs fun t => ∃ row ∈ rows, (ReadsActor filters.userId none row ∨
          ∃ userId ∈ filters.userId, row.type.isUser = false ∧ (userId, row.actorId) ∈ dir.memberships) ∧
        ReadsTarget dir inherited filters.projectId ((given subtreeIds).getD []) filters.domainId row ∧
        row.ExpandsToUser dir filters.userId t.userId ∧ t.roleId = row.roleId ∧
        row.ExpandsToTarget dir filters.projectId ((given subtreeIds).getD []) t.target := by
  obtain ⟨direct, hdirect, hmemDirect⟩ := listRoleAssignmentsForActor_spec hdir rows inherited
    filters.userId none (Or.inr rfl) hfilters.project subtreeIds filters.domainId
  obtain ⟨group, hgroup, hmemGroup⟩ := listGroupRefs_spec hdir hfilters inherited subtreeIds
  obtain ⟨refs, hrefs, hyields⟩ := expandAll_spec hdir filters.userId filters.projectId subtreeIds (direct ++ group) (by
    intro row hrow
    rcases mem_append.mp hrow with hrow | hrow
    · exact hrows row ((hmemDirect row).mp hrow).1
    · exact hrows row ((hmemGroup row).mp hrow).1)
  refine ⟨_, _, refs, hdirect, hgroup, by rw [← map_append, hrefs], hyields.congr fun t => ?_⟩
  constructor
  · rintro ⟨row, hrow, hexpands⟩
    rcases mem_append.mp hrow with hrow | hrow
    · obtain ⟨hrow, hactor, htarget⟩ := (hmemDirect row).mp hrow
      exact ⟨row, hrow, Or.inl hactor, htarget, hexpands⟩
    · obtain ⟨hrow, hactor, htarget⟩ := (hmemGroup row).mp hrow
      exact ⟨row, hrow, Or.inr hactor, htarget, hexpands⟩
  · rintro ⟨row, hrow, hactor | hactor, htarget, hexpands⟩
    · exact ⟨row, mem_append_left _ ((hmemDirect row).mpr ⟨hrow, hactor, htarget⟩), hexpands⟩
    · exact ⟨row, mem_append_right _ ((hmemGroup row).mpr ⟨hrow, hactor, htarget⟩), hexpands⟩

omit [DecidableEq ι] hfilters in
theorem role_of_closure {row : RoleAssignment ι} (hrow : row ∈ rows) {roleId : ι}
    (h : ReflTransGen (dir.Implies conf) row.roleId roleId) : ∃ role ∈ dir.roles, role.id = roleId := by
  rcases ReflTransGen.cases_tail_iff _ _ _ |>.mp h with rfl | ⟨_, -, hstep⟩
  · exact (hrows row hrow).role
  · exact hdir.implied _ hstep.2

theorem listEffectiveRoleAssignments_spec (strip : Bool) (subtreeIds : Option (List ι)) :
    ∃ n refs, (∀ m ≥ n, listEffectiveRoleAssignments dir conf rows m filters subtreeIds
        (if conf.osInherit then none else some false) strip = some refs) ∧
      Yields refs fun t => (∃ row ∈ rows, Reaches dir conf filters ((given subtreeIds).getD []) row t.userId t.target ∧
        ReflTransGen (dir.Implies conf) row.roleId t.roleId) ∧ dir.Lists strip t.roleId ∧
          ∀ roleId ∈ filters.roleId, t.roleId = roleId := by
  obtain ⟨direct, group, refs, hdirect, hgroup, hrefs, hyields⟩ := expanded_spec hdir hrows hfilters
    (if filters.domainId.isSome then some false else if conf.osInherit then none else some false) subtreeIds
  obtain ⟨n, implied, himplied, hyields⟩ := addImpliedRoles_spec dir conf hyields
  have hreaches : Yields implied fun t => ∃ row ∈ rows,
      Reaches dir conf filters ((given subtreeIds).getD []) row t.userId t.target ∧
        ReflTransGen (dir.Implies conf) row.roleId t.roleId := by
    refine hyields.congr fun t => ?_
    constructor
    · rintro ⟨roleId, ⟨row, hrow, hactor, htarget, huser, rfl, hexpands⟩, hclosure⟩
      exact ⟨row, hrow, ⟨hactor, htarget, huser, hexpands⟩, hclosure⟩
    · rintro ⟨row, hrow, ⟨hactor, htarget, huser, hexpands⟩, hclosure⟩
      exact ⟨row.roleId, ⟨row, hrow, hactor, htarget, huser, rfl, hexpands⟩, hclosure⟩
  have hstripped : ∃ stripped, (if strip then stripDomainRoles dir implied else some implied) = some stripped ∧
      ∀ ref, ref ∈ stripped ↔ ref ∈ implied ∧ dir.Lists strip ref.roleId := by
    cases strip with
    | false => exact ⟨implied, rfl, fun ref => ⟨fun h => ⟨h, nofun⟩, And.left⟩⟩
    | true =>
      refine stripDomainRoles_spec hdir implied fun ref href => ?_
      obtain ⟨t, ht, row, hrow, -, hclosure⟩ := hreaches.1 ref href
      rw [roleId_of_triple ht]
      exact role_of_closure hdir hrows conf hrow hclosure
  obtain ⟨stripped, hstrip, hmem⟩ := hstripped
  refine ⟨n, stripped.filter fun ref => filters.roleId.all (ref.roleId = ·), fun m hm => ?_, ?_⟩
  · unfold listEffectiveRoleAssignments
    dsimp only
    rw [hdirect, bind_some, hgroup, bind_some, hrefs, bind_some, himplied m hm, bind_some,
      hstrip, map_some]
  · have hroles : ∀ ref, ref ∈ (stripped.filter fun ref => filters.roleId.all (ref.roleId = ·)) ↔
        ref ∈ stripped ∧ ∀ roleId ∈ filters.roleId, ref.roleId = roleId := fun ref => by
      rw [mem_filter]
      cases filters.roleId <;> simp
    have hlisted := ((hreaches.restrict stripped (dir.Lists strip) hmem).restrict _
      (fun r => ∀ roleId ∈ filters.roleId, r = roleId) hroles)
    exact hlisted.congr fun t => and_assoc

omit hrows in
theorem subtreeIdsOf_spec : ∃ subtreeIds, subtreeIdsOf dir filters = some subtreeIds ∧
    ∀ q, q ∈ (given subtreeIds).getD [] ↔ filters.includeSubtree = true ∧ ∃ p ∈ filters.projectId, dir.Below q p := by
  unfold subtreeIdsOf
  cases hinclude : filters.includeSubtree with
  | false => exact ⟨none, rfl, fun q => by simp [given]⟩
  | true =>
    cases hp : filters.projectId with
    | none => exact ⟨none, rfl, fun q => by simp [given]⟩
    | some p =>
      obtain ⟨p, hp', rfl⟩ := hfilters.project p hp
      obtain ⟨l, hl, hmem⟩ := hdir.listProjectsInSubtree_spec hp'
      refine ⟨some (l.map Project.id), by rw [if_pos rfl]; exact congrArg (Option.map _) hl, fun q => ?_⟩
      have hgiven : (given (some (l.map Project.id))).getD [] = l.map Project.id := by
        by_cases hnil : l.map Project.id = []
        · rw [hnil]
          rfl
        · rw [mem_given_iff.mpr ⟨rfl, hnil⟩, getD_some]
      rw [hgiven, hmem]
      simp

/-- **The triples of the listing.** -/
theorem listRoleAssignments_spec (strip : Bool) :
    ∃ subtreeIds : List ι,
      (∀ q, q ∈ subtreeIds ↔ filters.includeSubtree = true ∧ ∃ p ∈ filters.projectId, dir.Below q p) ∧
      ∃ n refs, (∀ m ≥ n, listRoleAssignments dir conf rows m filters strip = some refs) ∧
        Yields refs fun t => (∃ row ∈ rows, Reaches dir conf filters subtreeIds row t.userId t.target ∧
          ReflTransGen (dir.Implies conf) row.roleId t.roleId) ∧ dir.Lists strip t.roleId ∧
            ∀ roleId ∈ filters.roleId, t.roleId = roleId := by
  obtain ⟨subtreeIds, hsubtree, hmem⟩ := subtreeIdsOf_spec hdir hfilters
  obtain ⟨n, refs, hrefs, hyields⟩ := listEffectiveRoleAssignments_spec hdir hrows conf hfilters strip subtreeIds
  refine ⟨_, hmem, n, refs, fun m hm => ?_, hyields⟩
  rw [listRoleAssignments, hsubtree]
  exact hrefs m hm

end Listing

end Mitaka.Keystone
