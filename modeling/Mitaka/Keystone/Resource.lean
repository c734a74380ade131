/-
  Subject: Projects and domains (keystone/resource/core.py over backends/sql.py).

  A domain is a project that acts as one; every other project names its parent and its
  domain. The manager's functions check their arguments against the table and change it
  (`createProject`, `updateProject'`, `deleteProject`). What is memoised is read from the
  table.
-/
import Mitaka.Lib.Forest

namespace Mitaka.Keystone.Resource

/-! ## 1. The driver -/

/-- A row of `project`. -/
structure Project where
  id : ℕ
  name : String
  description : Option String
  domainId : Option ℕ
  parentId : Option ℕ
  isDomain : Bool
  enabled : Bool
  deriving DecidableEq, Repr

abbrev Db := List Project

inductive Error
  | validationError
  | forbidden
  | assertionError
  | projectNotFound
  | domainNotFound
  | conflict
  | typeError
  | endless
  deriving DecidableEq, Repr

/-- The projects by their parents. -/
def nodes (db : Db) : Nodes Project ℕ := ⟨db, Project.id, Project.parentId⟩

def getProject (db : Db) (projectId : ℕ) : Except Error Project :=
  match db.find? fun p => p.id = projectId with
  | some p => .ok p
  | none => .error .projectNotFound

/-- With an id that may be null. -/
def getProject? (db : Db) : Option ℕ → Except Error Project
  | some projectId => getProject db projectId
  | none => .error .projectNotFound

/-- `list_projects_in_subtree`; a repeated entry makes it return nothing. -/
def listProjectsInSubtree (db : Db) (projectId : ℕ) : Except Error (List Project) := do
  let _ ← getProject db projectId
  match (nodes db).subtree projectId with
  | some subtree => .ok subtree
  | none => .error .typeError

/-- `list_project_parents`. -/
def listProjectParents (db : Db) (projectId : ℕ) : Except Error (List Project) := do
  let project ← getProject db projectId
  match (nodes db).parents project with
  | some parents => .ok parents
  | none => .error .typeError

def isLeafProject (db : Db) (projectId : ℕ) : Bool := (nodes db).children [projectId] = []

def listProjectsInDomain (db : Db) (domainId : ℕ) : Except Error (List Project) :=
  match getProject db domainId with
  | .ok _ => .ok (db.filter fun p => p.domainId = some domainId)
  | .error _ => .error .domainNotFound

/-- The unique constraint on `domain_id` and `name`. -/
def NameTaken (db : Db) (p : Project) : Prop := ∃ q ∈ db, q.id ≠ p.id ∧ q.domainId = p.domainId ∧ q.name = p.name

instance (db : Db) (p : Project) : Decidable (NameTaken db p) := inferInstanceAs (Decidable (∃ q ∈ db, _))

/-- `create_project` of the driver. -/
def driverCreateProject (db : Db) (p : Project) : Except Error Db :=
  if (∃ q ∈ db, q.id = p.id) ∨ NameTaken db p then .error .conflict else .ok (db ++ [p])

/-- `delete_projects_from_ids`. -/
def deleteProjectsFromIds (db : Db) (ids : List ℕ) : Db := db.filter fun p => p.id ∉ ids

/-! ## 2. The manager -/

/-- The configuration, and the checks of names. -/
structure Env where
  maxProjectTreeDepth : ℕ
  multipleDomainsSupported : Bool
  defaultDomainId : ℕ
  /-- `clean.project_name` -/
  projectName : String → Except Error String
  projectNameUnsafe : String → Bool
  domainNameUnsafe : String → Bool
  federated : ℕ → String → Bool

def assertDomainNotFederated (env : Env) (domainId : ℕ) (name : String) : Except Error Unit :=
  if env.federated domainId name then .error .assertionError else .ok ()

def getDomain (db : Db) (domainId : Option ℕ) : Except Error Project :=
  match getProject? db domainId with
  | .ok p => if p.isDomain then .ok p else .error .domainNotFound
  | .error _ => .error .domainNotFound

def assertIsDomainProjectConstraints (env : Env) (p : Project) : Except Error Unit := do
  if ¬ env.multipleDomainsSupported ∧ p.id ≠ env.defaultDomainId then .error .validationError
  else do
    assertDomainNotFederated env p.id p.name
    if p.parentId.isSome then .error .validationError else .ok ()

/-- The parent and the domain agree. -/
def assertRegularProjectConstraints (db : Db) (p : Project) : Except Error Unit := do
  let domain ← getDomain db p.domainId
  let parent ← getProject? db p.parentId
  if parent.isDomain then
    if parent.id ≠ domain.id then .error .validationError else .ok ()
  else if parent.domainId ≠ some domain.id then .error .validationError
  else .ok ()

def enforceProjectConstraints (env : Env) (db : Db) (p : Project) : Except Error Unit :=
  if p.isDomain then assertIsDomainProjectConstraints env p
  else do
    assertRegularProjectConstraints db p
    let parent ← getProject? db p.parentId
    let parents ← listProjectParents db parent.id
    let parentsList := parents ++ [parent]
    if ∃ ref ∈ parentsList, ref.enabled = false then .error .validationError
    else if env.maxProjectTreeDepth + 1 < parentsList.length + 1 then .error .forbidden
    else .ok ()

/-- The attributes of a new project. -/
structure Create where
  name : String
  description : Option String
  domainId : Option ℕ
  parentId : Option ℕ
  isDomain : Bool
  enabled : Option Bool

def createProject (env : Env) (db : Db) (projectId : ℕ) (c : Create) : Except Error Db := do
  if env.projectNameUnsafe c.name then .error .validationError
  else do
    let p : Project := ⟨projectId, c.name, c.description, c.domainId, c.parentId.or c.domainId, c.isDomain, c.enabled.getD true⟩
    enforceProjectConstraints env db p
    let name ← env.projectName p.name
    driverCreateProject db { p with name := name }

def createDomain (env : Env) (db : Db) (domainId : ℕ) (name : String) (description : Option String) (enabled : Option Bool) :
    Except Error Db :=
  if env.domainNameUnsafe name then .error .validationError
  else createProject env db domainId ⟨name, description, none, none, true, enabled⟩

def assertAllParentsAreEnabled (db : Db) (projectId : ℕ) : Except Error Unit := do
  let parents ← listProjectParents db projectId
  if ∃ p ∈ parents, p.enabled = false then .error .forbidden else .ok ()

def checkWholeSubtreeIsDisabled (db : Db) (projectId : ℕ) : Except Error Bool := do
  let subtree ← listProjectsInSubtree db projectId
  .ok (subtree.all fun p => p.enabled = false)

/-- The attributes that an update gives; they may be null. -/
structure Update where
  name : Option String
  description : Option (Option String)
  domainId : Option (Option ℕ)
  parentId : Option (Option ℕ)
  isDomain : Option Bool
  enabled : Option Bool

/-- The update gives the project another domain. -/
def Update.Moves (u : Update) (p : Project) : Prop := ∃ d ∈ u.domainId, d ≠ p.domainId

instance (u : Update) (p : Project) : Decidable (u.Moves p) := inferInstanceAs (Decidable (∃ d ∈ u.domainId, _))

/-- The checks of `_update_project` on a new `domain_id`. -/
def checkUpdateDomain (db : Db) (original : Project) (u : Update) : Except Error Unit :=
  if u.Moves original then
    if original.isDomain then .error .validationError
    else do
      let parent ← getProject? db original.parentId
      if ¬ parent.isDomain then .error .validationError
      else do
        let subtree ← listProjectsInSubtree db original.id
        if subtree ≠ [] then .error .validationError else .ok ()
  else .ok ()

/-- The checks on the names of domains and of projects. -/
def checkName (env : Env) (original : Project) (u : Update) : Except Error Unit := do
  if original.isDomain then
    assertDomainNotFederated env original.id original.name
  else .ok ()
  if ∃ name ∈ u.name, name ≠ original.name ∧
      (if original.isDomain then env.domainNameUnsafe name else env.projectNameUnsafe name) then
    .error .validationError
  else .ok ()

/-- The checks on enabling and disabling; without the attribute it counts as enabled. -/
def checkEnabled (db : Db) (original : Project) (u : Update) (cascade : Bool) : Except Error Unit :=
  let projectEnabled := u.enabled.getD true
  if original.enabled = false ∧ projectEnabled then assertAllParentsAreEnabled db original.id
  else if original.enabled ∧ projectEnabled = false ∧ original.isDomain = false ∧ cascade = false then do
    let disabled ← checkWholeSubtreeIsDisabled db original.id
    if disabled then .ok () else .error .forbidden
  else .ok ()

/-- `_only_allow_enabled_to_update_cascade` -/
def onlyAllowEnabledToUpdateCascade (u : Update) (original : Project) : Except Error Unit :=
  if (∃ x ∈ u.name, x ≠ original.name) ∨ (∃ x ∈ u.description, x ≠ original.description) ∨ u.Moves original ∨
      (∃ x ∈ u.parentId, x ≠ original.parentId) ∨ (∃ x ∈ u.isDomain, x ≠ original.isDomain) then .error .validationError
  else .ok ()

/-- The flag of the projects with these ids. -/
def setEnabled (db : Db) (ids : List ℕ) (enabled : Bool) : Db := db.map fun p => if p.id ∈ ids then { p with enabled := enabled } else p

def updateProjectEnabledCascade (db : Db) (projectId : ℕ) (enabled : Bool) : Except Error Db := do
  let subtree ← listProjectsInSubtree db projectId
  let subtreeToUpdate := subtree.filter fun child => child.enabled ≠ enabled
  .ok (setEnabled db (subtreeToUpdate.map Project.id) enabled)

/-- The row after an update. -/
def Update.apply (u : Update) (p : Project) : Project where
  id := p.id
  name := u.name.getD p.name
  description := u.description.getD p.description
  domainId := u.domainId.getD p.domainId
  parentId := u.parentId.getD p.parentId
  isDomain := u.isDomain.getD false || p.isDomain
  enabled := u.enabled.getD p.enabled

/-- `update_project` of the driver, with the name that has been cleaned. -/
def driverUpdateProject (env : Env) (db : Db) (projectId : ℕ) (u : Update) : Except Error Db := do
  let name ← u.name.mapM env.projectName
  let original ← getProject db projectId
  let p := { u with name := name }.apply original
  if NameTaken db p then .error .conflict else .ok (db.map fun q => if q.id = projectId then p else q)

/-- `_update_project` -/
def updateProject' (env : Env) (db : Db) (projectId : ℕ) (u : Update) (cascade : Bool) : Except Error Db := do
  let original ← getProject db projectId
  checkName env original u
  if ∃ x ∈ u.parentId, x ≠ original.parentId then .error .forbidden
  else if ∃ x ∈ u.isDomain, x ≠ original.isDomain then .error .validationError
  else do
    checkUpdateDomain db original u
    checkEnabled db original u cascade
    if cascade then do
      onlyAllowEnabledToUpdateCascade u original
      let db ← updateProjectEnabledCascade db projectId (u.enabled.getD true)
      driverUpdateProject env db projectId u
    else driverUpdateProject env db projectId u

def updateDomain (env : Env) (db : Db) (domainId : ℕ) (name : Option String) (description : Option (Option String))
    (enabled : Option Bool) : Except Error Db := do
  if ∃ x ∈ name, env.federated domainId x then .error .assertionError
  else updateProject' env db domainId ⟨name, description, some none, some none, some true, enabled⟩ false

/-! ## 3. Deleting -/

/-- `_delete_project` -/
def deleteProject' (db : Db) (projectId : ℕ) (cascade : Bool) : Except Error Db := do
  let project ← getProject db projectId
  if project.isDomain ∧ project.enabled then .error .validationError
  else if isLeafProject db projectId = false ∧ cascade = false then .error .forbidden
  else if cascade then do
    let subtree ← listProjectsInSubtree db projectId
    if ∃ p ∈ subtree, p.enabled then .error .forbidden
    else .ok (deleteProjectsFromIds db (subtree.map Project.id ++ [projectId]))
  else .ok (deleteProjectsFromIds db [projectId])

/-- One call: when it fails it changes nothing. -/
def atomically (db : Db) : Except Error Db → Db × Except Error Unit
  | .ok db => (db, .ok ())
  | .error e => (db, .error e)

/-- The calls in order, up to the first that fails. -/
def untilError {σ α : Type} (f : σ → α → σ × Except Error Unit) : σ → List α → σ × Except Error Unit
  | s, [] => (s, .ok ())
  | s, a :: l => match f s a with
    | (s, .ok _) => untilError f s l
    | (s, .error e) => (s, .error e)

mutual

/-- `delete_project`: the table afterwards, also when it fails. -/
def deleteProject : ℕ → Db → ℕ → Bool → Db × Except Error Unit
  | 0, db, _, _ => (db, .error .endless)
  | fuel + 1, db, projectId, cascade =>
    match getProject db projectId with
    | .error e => (db, .error e)
    | .ok project =>
      if project.isDomain then deleteDomain fuel db projectId else atomically db (deleteProject' db projectId cascade)

def deleteDomain : ℕ → Db → ℕ → Db × Except Error Unit
  | 0, db, _ => (db, .error .endless)
  | fuel + 1, db, domainId =>
    match getProject db domainId with
    | .error _ => (db, .error .domainNotFound)
    | .ok domain =>
      if domain.enabled then (db, .error .forbidden)
      else match listProjectsInDomain db domainId with
        | .error e => (db, .error e)
        | .ok projects =>
          match untilError (deleteProjects fuel projects) (db, []) (projects.filter fun p => p.parentId = some domainId) with
          | ((db, _), .error e) => (db, .error e)
          | ((db, _), .ok _) => atomically db (deleteProject' db domainId false)

/-- `_delete_projects` in `_delete_domain_contents`: the table and the projects examined. -/
def deleteProjects : ℕ → List Project → Db × List ℕ → Project → (Db × List ℕ) × Except Error Unit
  | 0, _, s, _ => (s, .error .endless)
  | fuel + 1, projects, (db, examined), project =>
    if project.id ∈ examined then ((db, examined), .ok ())
    else
      match untilError (deleteProjects fuel projects) (db, project.id :: examined)
        (projects.filter fun p => p.parentId = some project.id) with
      | (s, .error e) => (s, .error e)
      | ((db, examined), .ok _) =>
        match deleteProject fuel db project.id false with
        | (db, .error .projectNotFound) => ((db, examined), .ok ())
        | (db, result) => ((db, examined), result)

end

end Mitaka.Keystone.Resource
