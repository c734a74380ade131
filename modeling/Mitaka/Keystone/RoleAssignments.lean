/-
  Subject: keystone/assignment/core.py, `list_role_assignments` in effective mode, over
           assignment/backends/sql.py and resource/backends/sql.py.

  The rows of the driver are read for the filters, then groups and inheritance are
  expanded, then implied roles, then domain roles are stripped and the role is matched.
  `group_id`, `inherited` and `source_from_group_ids` are not given.
-/
import Mitaka.Lib.Forest
import Mitaka.Lib.Worklist

namespace Mitaka.Keystone

variable {ι : Type*} [DecidableEq ι]

/-! ## 1. Projects, users, groups and roles -/

/-- A project; one without a domain acts as a domain. -/
structure Project (ι : Type*) where
  id : ι
  domainId : Option ι
  parentId : Option ι
  deriving DecidableEq

structure Role (ι : Type*) where
  id : ι
  domainId : Option ι
  deriving DecidableEq

/-- What the resource, identity and role drivers store. -/
structure Directory (ι : Type*) where
  projects : List (Project ι)
  users : List ι
  groups : List ι
  /-- user and group -/
  memberships : List (ι × ι)
  roles : List (Role ι)
  /-- prior role and implied role -/
  implications : List (ι × ι)

namespace Directory

/-- The projects as a forest. -/
def nodes (dir : Directory ι) : Nodes (Project ι) ι := ⟨dir.projects, Project.id, Project.parentId⟩

/-- `get_project`; none is `ProjectNotFound`. -/
def getProject (dir : Directory ι) (projectId : ι) : Option (Project ι) := dir.projects.find? (·.id = projectId)

/-- `list_projects_in_domain`. -/
def listProjectsInDomain (dir : Directory ι) (domainId : ι) : Option (List (Project ι)) :=
  (dir.getProject domainId).map fun _ => dir.projects.filter (·.domainId = some domainId)

/-- `list_projects_in_subtree`. -/
def listProjectsInSubtree (dir : Directory ι) (projectId : ι) : Option (List (Project ι)) :=
  (dir.getProject projectId).bind fun _ => dir.nodes.subtree projectId

/-- `list_project_parents`. -/
def listProjectParents (dir : Directory ι) (projectId : ι) : Option (List (Project ι)) :=
  (dir.getProject projectId).bind dir.nodes.parents

/-- `list_users_in_group`. -/
def listUsersInGroup (dir : Directory ι) (groupId : ι) : Option (List ι) :=
  if groupId ∈ dir.groups then some ((dir.memberships.filter (·.2 = groupId)).map Prod.fst) else none

/-- `_get_group_ids_for_user_id`. -/
def getGroupIdsForUserId (dir : Directory ι) (userId : ι) : Option (List ι) :=
  if userId ∈ dir.users then some ((dir.memberships.filter (·.1 = userId)).map Prod.snd) else none

/-- `list_implied_roles`. -/
def listImpliedRoles (dir : Directory ι) (priorRoleId : ι) : List ι :=
  (dir.implications.filter (·.1 = priorRoleId)).map Prod.snd

/-- `get_role`. -/
def getRole (dir : Directory ι) (roleId : ι) : Option (Role ι) := dir.roles.find? (·.id = roleId)

end Directory

/-! ## 2. The driver -/

inductive AssignmentType
  | userProject | groupProject | userDomain | groupDomain
  deriving DecidableEq

namespace AssignmentType

def isUser : AssignmentType → Bool
  | .userProject | .userDomain => true
  | .groupProject | .groupDomain => false

def isProject : AssignmentType → Bool
  | .userProject | .groupProject => true
  | .userDomain | .groupDomain => false

end AssignmentType

/-- A row of the table `assignment`. -/
structure RoleAssignment (ι : Type*) where
  type : AssignmentType
  actorId : ι
  targetId : ι
  roleId : ι
  inherited : Bool
  deriving DecidableEq

/-- The dict `indirect` of an assignment that has been expanded. -/
structure Indirect (ι : Type*) where
  groupId : Option ι := none
  projectId : Option ι := none
  domainId : Option ι := none
  roleId : Option ι := none
  deriving DecidableEq

/-- An assignment as a dict. -/
structure Ref (ι : Type*) where
  userId : Option ι := none
  groupId : Option ι := none
  projectId : Option ι := none
  domainId : Option ι := none
  roleId : ι
  inheritedToProjects : Bool
  indirect : Indirect ι := {}
  deriving DecidableEq

/-- `denormalize_role`. -/
def denormalizeRole (row : RoleAssignment ι) : Ref ι :=
  match row.type with
  | .userProject =>
    { userId := some row.actorId, projectId := some row.targetId, roleId := row.roleId
      inheritedToProjects := row.inherited }
  | .userDomain =>
    { userId := some row.actorId, domainId := some row.targetId, roleId := row.roleId
      inheritedToProjects := row.inherited }
  | .groupProject =>
    { groupId := some row.actorId, projectId := some row.targetId, roleId := row.roleId
      inheritedToProjects := row.inherited }
  | .groupDomain =>
    { groupId := some row.actorId, domainId := some row.targetId, roleId := row.roleId
      inheritedToProjects := row.inherited }

/-- `_get_assignment_types`, for what is given. -/
def getAssignmentTypes (user group project domain : Bool) : List AssignmentType :=
  let actorTypes : List AssignmentType :=
    if user then [.userProject, .userDomain] else if group then [.groupProject, .groupDomain] else []
  let targetTypes : List AssignmentType :=
    if project then [.userProject, .groupProject] else if domain then [.userDomain, .groupDomain] else []
  if actorTypes ≠ [] ∧ targetTypes ≠ [] then actorTypes.filter (· ∈ targetTypes)
  else if actorTypes ≠ [] then actorTypes else targetTypes

/-- A list that is given and not empty. -/
def given (l : Option (List ι)) : Option (List ι) := l.filter (!·.isEmpty)

/-- `list_role_assignments` of the driver, for all roles. -/
def driverListRoleAssignments (rows : List (RoleAssignment ι)) (userId : Option ι) (groupIds : Option (List ι))
    (domainId : Option ι) (projectIds : Option (List ι)) (inheritedToProjects : Option Bool) : List (Ref ι) :=
  let assignmentTypes :=
    getAssignmentTypes userId.isSome (given groupIds).isSome (given projectIds).isSome domainId.isSome
  let targets := given projectIds <|> domainId.map ([·])
  let actors := given groupIds <|> userId.map ([·])
  (rows.filter fun row =>
    actors.all (row.actorId ∈ ·) && targets.all (row.targetId ∈ ·) &&
      (assignmentTypes = [] || row.type ∈ assignmentTypes) && inheritedToProjects.all (row.inherited = ·)).map
    denormalizeRole

/-! ## 3. The expansions -/

variable (dir : Directory ι)

/-- `create_group_assignment`. -/
def createGroupAssignment (baseRef : Ref ι) (userId : ι) : Ref ι :=
  { baseRef with userId := some userId, groupId := none, indirect := { baseRef.indirect with groupId := baseRef.groupId } }

/-- `expand_group_assignment` of a group. -/
def expandGroupAssignment (ref : Ref ι) (groupId : ι) (userId : Option ι) : Option (List (Ref ι)) :=
  match userId with
  | some userId => some [createGroupAssignment ref userId]
  | none => (dir.listUsersInGroup groupId).map fun users => users.map (createGroupAssignment ref)

/-- `create_inherited_assignment`. -/
def createInheritedAssignment (baseRef : Ref ι) (projectId : ι) : Ref ι :=
  match baseRef.projectId with
  | some parentId =>
    { baseRef with
      projectId := some projectId, inheritedToProjects := false
      indirect := { baseRef.indirect with projectId := some parentId } }
  | none =>
    { baseRef with
      projectId := some projectId, domainId := none, inheritedToProjects := false
      indirect := { baseRef.indirect with domainId := baseRef.domainId } }

/-- The projects to which an inherited assignment is applied. -/
def inheritingProjects (ref : Ref ι) (projectId : Option ι) (subtreeIds : Option (List ι)) : Option (List ι) :=
  match projectId with
  | some projectId =>
    let projectIds := projectId :: (given subtreeIds).getD []
    match ref.projectId with
    | some parentId =>
      if (given subtreeIds).isSome ∧ parentId ∈ projectIds then
        (dir.listProjectsInSubtree parentId).map (·.map Project.id)
      else some projectIds
    | none => some projectIds
  | none =>
    match ref.domainId with
    | some domainId => (dir.listProjectsInDomain domainId).map (·.map Project.id)
    | none => ref.projectId.bind fun parentId => (dir.listProjectsInSubtree parentId).map (·.map Project.id)

/-- `expand_inherited_assignment`. -/
def expandInheritedAssignment (ref : Ref ι) (userId projectId : Option ι) (subtreeIds : Option (List ι)) :
    Option (List (Ref ι)) :=
  (inheritingProjects dir ref projectId subtreeIds).bind fun projectIds =>
    match ref.groupId with
    | some groupId =>
      (expandGroupAssignment dir ref groupId userId).map fun refs =>
        refs.flatMap fun ref => projectIds.map (createInheritedAssignment ref)
    | none => some (projectIds.map (createInheritedAssignment ref))

/-- `_expand_indirect_assignment`. -/
def expandIndirectAssignment (ref : Ref ι) (userId projectId : Option ι) (subtreeIds : Option (List ι)) :
    Option (List (Ref ι)) :=
  if ref.inheritedToProjects then expandInheritedAssignment dir ref userId projectId subtreeIds
  else
    match ref.groupId with
    | some groupId => expandGroupAssignment dir ref groupId userId
    | none => some [ref]

/-- `_make_implied_ref_copy`. -/
def makeImpliedRefCopy (priorRef : Ref ι) (impliedRoleId : ι) : Ref ι :=
  { priorRef with roleId := impliedRoleId, indirect := { priorRef.indirect with roleId := some priorRef.roleId } }

/-- The copies of an assignment for the roles that its role implies. -/
def impliedRefs (ref : Ref ι) : List (Ref ι) := (dir.listImpliedRoles ref.roleId).map (makeImpliedRefCopy ref)

/-- The options `os_inherit.enabled` and `token.infer_roles`. -/
structure AssignmentConf where
  osInherit : Bool
  inferRoles : Bool

variable (conf : AssignmentConf)

/-- `add_implied_roles`, for a number of turns of its loop. -/
def addImpliedRoles (turns : ℕ) (roleRefs : List (Ref ι)) : Option (List (Ref ι)) :=
  if conf.inferRoles then worklist (impliedRefs dir) turns roleRefs.reverse [] roleRefs else some roleRefs

/-- `_strip_domain_roles`. -/
def stripDomainRoles : List (Ref ι) → Option (List (Ref ι))
  | [] => some []
  | ref :: roleRefs =>
    (dir.getRole ref.roleId).bind fun role =>
      (stripDomainRoles roleRefs).map fun filterResults =>
        if role.domainId = none then ref :: filterResults else filterResults

/-! ## 4. The listing -/

variable (rows : List (RoleAssignment ι))

/-- The projects whose inherited assignments reach a project or its subtree. -/
def sourceIds (projectId : ι) (subtreeIds : Option (List ι)) : Option (List ι) :=
  (dir.listProjectParents projectId).map fun parents =>
    parents.map Project.id ++ ((given subtreeIds).map (· ++ [projectId])).getD []

/-- `non_inherited_refs` of `list_role_assignments_for_actor`. -/
def nonInheritedRefs (inherited : Option Bool) (userId : Option ι) (groupIds : Option (List ι)) (projectId : Option ι)
    (subtreeIds : Option (List ι)) (domainId : Option ι) : List (Ref ι) :=
  let projectIdsOfInterest := projectId.map fun projectId => (given subtreeIds).getD [] ++ [projectId]
  if inherited = some true then []
  else driverListRoleAssignments rows userId groupIds domainId projectIdsOfInterest (some false)

/-- `inherited_refs` of `list_role_assignments_for_actor`. -/
def inheritedRefs (inherited : Option Bool) (userId : Option ι) (groupIds : Option (List ι)) (projectId : Option ι)
    (subtreeIds : Option (List ι)) : Option (List (Ref ι)) :=
  if inherited = some false then some []
  else
    match projectId with
    | some projectId =>
      (dir.getProject projectId).bind fun project =>
        (sourceIds dir projectId subtreeIds).map fun sourceIds =>
          driverListRoleAssignments rows userId groupIds project.domainId none (some true) ++
            if sourceIds = [] then []
            else driverListRoleAssignments rows userId groupIds none (some sourceIds) (some true)
    | none => some (driverListRoleAssignments rows userId groupIds none none (some true))

/-- `list_role_assignments_for_actor`. -/
def listRoleAssignmentsForActor (inherited : Option Bool) (userId : Option ι) (groupIds : Option (List ι))
    (projectId : Option ι) (subtreeIds : Option (List ι)) (domainId : Option ι) : Option (List (Ref ι)) :=
  (inheritedRefs dir rows inherited userId groupIds projectId subtreeIds).map
    (nonInheritedRefs rows inherited userId groupIds projectId subtreeIds domainId ++ ·)

/-- The expansions, in the order of the assignments. -/
def expandAll (userId projectId : Option ι) (subtreeIds : Option (List ι)) : List (Ref ι) → Option (List (Ref ι))
  | [] => some []
  | ref :: refs =>
    (expandIndirectAssignment dir ref userId projectId subtreeIds).bind fun expanded =>
      (expandAll userId projectId subtreeIds refs).map (expanded ++ ·)

/-- The filters of `list_role_assignments`. -/
structure Filters (ι : Type*) where
  roleId : Option ι := none
  userId : Option ι := none
  domainId : Option ι := none
  projectId : Option ι := none
  includeSubtree : Bool := false

/-- `group_refs` of `_list_effective_role_assignments`: the assignments of the groups of the user. -/
def listGroupRefs (inherited : Option Bool) (filters : Filters ι) (subtreeIds : Option (List ι)) :
    Option (List (Ref ι)) :=
  match filters.userId with
  | some userId =>
    (dir.getGroupIdsForUserId userId).bind fun groupIds =>
      if groupIds = [] then some []
      else listRoleAssignmentsForActor dir rows inherited none (some groupIds) filters.projectId subtreeIds
        filters.domainId
  | none => some []

/-- `_list_effective_role_assignments`. -/
def listEffectiveRoleAssignments (turns : ℕ) (filters : Filters ι) (subtreeIds : Option (List ι))
    (inherited : Option Bool) (strip : Bool) : Option (List (Ref ι)) :=
  let inherited := if filters.domainId.isSome then some false else inherited
  (listRoleAssignmentsForActor dir rows inherited filters.userId none filters.projectId subtreeIds
    filters.domainId).bind fun directRefs =>
  (listGroupRefs dir rows inherited filters subtreeIds).bind fun groupRefs =>
  (expandAll dir filters.userId filters.projectId subtreeIds (directRefs ++ groupRefs)).bind fun refs =>
  (addImpliedRoles dir conf turns refs).bind fun refs =>
  (if strip then stripDomainRoles dir refs else some refs).map fun (refs : List (Ref ι)) =>
    refs.filter fun ref => filters.roleId.all (ref.roleId = ·)

/-- `subtree_ids`; none is an exception, `some none` is `None`. -/
def subtreeIdsOf (filters : Filters ι) : Option (Option (List ι)) :=
  if filters.includeSubtree then
    match filters.projectId with
    | some projectId => (dir.listProjectsInSubtree projectId).map fun l => some (l.map Project.id)
    | none => some none
  else some none

/-- `list_role_assignments`, `effective`, for a number of turns of the loop over implied roles. -/
def listRoleAssignments (turns : ℕ) (filters : Filters ι) (strip : Bool) : Option (List (Ref ι)) :=
  let inherited := if conf.osInherit then none else some false
  (subtreeIdsOf dir filters).bind fun subtreeIds =>
    listEffectiveRoleAssignments dir conf rows turns filters subtreeIds inherited strip

end Mitaka.Keystone
