/-
  Subject: heat/engine/environment.py, `ResourceInfo` and `ResourceRegistry`: what a resource
           type stands for in an environment.

  A registry is a dict of dicts. Its entries are objects that several registries may hold; all
  of an entry is fixed when it is made but `user_resource`, which the world keeps apart, an entry
  being told by its registry, its path and its implementation. An entry that is no `ResourceInfo`
  where a lookup wants one raises (`AttributeError`, or `TypeError` from the sort).
-/
import Mitaka.Lib.Dict
import Mitaka.Lib.Fallible

namespace Mitaka.Heat

/-! ## 1. Entries -/

/-- The registries: the global one, and one for each user environment. -/
inductive Scope where
  | global
  | user (id : ℕ)
  deriving DecidableEq, Repr

/-- The value of an entry: a string, a class of a plugin, or anything else. -/
inductive InfoValue where
  | text (s : List Char)
  | plugin (name : List Char)
  | other
  deriving DecidableEq, Repr

/-- What an entry makes of a resource type. -/
inductive Implementation where
  | cls (value : InfoValue)
  | template (name : List Char)
  | map (value : List Char)
  | glob (value : List Char)
  deriving DecidableEq, Repr

/-- A `ResourceInfo`. -/
structure ResourceInfo where
  registry : Scope
  path : List (List Char)
  impl : Implementation
  deriving DecidableEq, Repr

def isTemplateName (s : List Char) : Bool := ".yaml".toList.isSuffixOf s || ".template".toList.isSuffixOf s

def isGlobName (s : List Char) : Bool := "*".toList.isSuffixOf s

namespace ResourceInfo

/-- `self.name`. -/
def name (info : ResourceInfo) : List Char := info.path.getLastD []

/-- `ResourceInfo(registry, path, value)`, the subclass by name and value. -/
def new (registry : Scope) (path : List (List Char)) (value : InfoValue) : ResourceInfo :=
  let name := path.getLastD []
  ⟨registry, path,
    if isTemplateName name then .template name
    else match value with
      | .text s => if isTemplateName s then .template s else if isGlobName name then .glob s else .map s
      | value => .cls value⟩

/-- `self.value`. -/
def value (info : ResourceInfo) : InfoValue :=
  match info.impl with
  | .cls value => value
  | .template name => .text name
  | .map value => .text value
  | .glob value => .text value

/-- `matches`: of wildcard mappings only. -/
def «matches» (info : ResourceInfo) (resourceType : List Char) : Bool :=
  match info.impl with
  | .glob value => resourceType != value && info.name.dropLast.isPrefixOf resourceType
  | _ => false

/-- The type that `get_resource_info` of a mapping looks up; a class or a template is itself. -/
def target (info : ResourceInfo) (resourceType : List Char) : Option (List Char) :=
  match info.impl with
  | .map value => some value
  | .glob value =>
    if isGlobName value then some (value.dropLast ++ resourceType.drop info.name.dropLast.length) else some value
  | _ => none

/-- `isinstance(info, (TemplateResourceInfo, ClassResourceInfo))`. -/
def isEnd (info : ResourceInfo) : Bool :=
  match info.impl with
  | .cls _ => true
  | .template _ => true
  | _ => false

end ResourceInfo

theorem ResourceInfo.target_eq_none {info : ResourceInfo} {resourceType : List Char} :
    info.target resourceType = none ↔ info.isEnd = true := by
  rcases info with ⟨registry, path, cls | name | value | value⟩
  · exact iff_of_true rfl rfl
  · exact iff_of_true rfl rfl
  · exact iff_of_false nofun nofun
  · rw [target]
    dsimp only
    split <;> exact iff_of_false nofun nofun

/-! ## 2. Registries -/

/-- A hook or restricted action of an environment: a string or a list of them. -/
inductive Item where
  | text (s : List Char)
  | list (l : List (List Char))
  deriving DecidableEq, Repr

/-- An entry of a registry. -/
inductive Entry where
  | info (info : ResourceInfo)
  | item (item : Item)
  | dict (entries : List (List Char × Entry))

/-- `self._registry`. -/
abbrev Registry := Dict (List Char) Entry

/-- The entry at a path. -/
def Registry.entryAt : Registry → List (List Char) → Option Entry
  | _, [] => none
  | r, [name] => r.get name
  | r, key :: path =>
    match r.get key with
    | some (.dict inner) => entryAt inner path
    | _ => none

/-- Goes to the dict at a path, making it where it is not, and works on it. What is no dict on the way raises. -/
def Registry.updateAt (f : Registry → Registry) : List (List Char) → Registry → Option Registry
  | [], r => some (f r)
  | key :: path, r =>
    match r.get key with
    | none => (updateAt f path []).map fun inner => r.set key (.dict inner)
    | some (.dict inner) => (updateAt f path inner).map fun inner => r.set key (.dict inner)
    | some _ => none

/-- All registries, and `user_resource` of their entries. -/
structure World where
  registries : Scope → Registry
  userResource : ResourceInfo → Bool

/-- Registries nothing has been loaded into; a new entry is a user resource. -/
def World.initial : World := ⟨fun _ => [("resources".toList, .dict [])], fun _ => true⟩

namespace World

def setRegistry (w : World) (s : Scope) (r : Registry) : World := { w with registries := Function.update w.registries s r }

/-- `ResourceInfo.__eq__`. -/
def same (w : World) (a b : ResourceInfo) : Bool :=
  a.path == b.path && a.value == b.value && w.userResource a == w.userResource b

/-- `ResourceInfo.__lt__`: user resources first, then longer paths, then by path. -/
def lt (w : World) (a b : ResourceInfo) : Bool :=
  if w.userResource a ≠ w.userResource b then w.userResource a
  else if a.path.length ≠ b.path.length then decide (b.path.length < a.path.length)
  else decide (a.path < b.path)

/-- The removal of `_register_info(path, None)`, with a wildcard of all entries it matches. -/
def removeInfo (name : List Char) (r : Registry) : Registry :=
  if isGlobName name then
    (r.map Prod.fst).foldl (fun r resName => match r.get resName with
      | some (.info _) => if name.dropLast.isPrefixOf resName then r.erase resName else r
      | _ => r) r
  else r.erase name

/-- `_register_info(path, info)`; `none` is an exception. -/
def registerInfo (w : World) (s : Scope) (path : List (List Char)) : Option ResourceInfo → Option World
  | none => ((w.registries s).updateAt (removeInfo (path.getLastD [])) path.dropLast).map (w.setRegistry s)
  | some info =>
    match (w.registries s).entryAt path with
    | some (.info old) => if w.same old info then some w else place info
    | _ => place info
where
  /-- What is no plugin has no `support_status`. -/
  place (info : ResourceInfo) : Option World :=
    if info.impl = .cls .other then none
    else ((w.registries s).updateAt (fun r => r.set (path.getLastD []) (.info info)) path.dropLast).map fun r =>
      { w.setRegistry s r with userResource := Function.update w.userResource info (s != .global) }

/-- `_register_item(path, item)`. -/
def registerItem (w : World) (s : Scope) (path : List (List Char)) (item : Item) : Option World :=
  ((w.registries s).updateAt (fun r => r.set (path.getLastD []) (.item item)) path.dropLast).map (w.setRegistry s)

end World

/-! ## 3. Loading an environment -/

/-- A value of the environment's dictionary. -/
inductive Snippet where
  | null
  | text (s : List Char)
  | plugin (name : List Char)
  | other
  | list (l : List (Option (List Char)))
  | dict (entries : List (List Char × Snippet))

def hookTypes : List (List Char) :=
  ["pre-create", "pre-update", "pre-delete", "post-create", "post-update", "post-delete"].map String.toList

def restrictedActions : List (List Char) := ["update", "replace"].map String.toList

/-- A string or a list of strings that are all valid. -/
def Snippet.toItem (valid : List (List Char)) : Snippet → Option Item
  | .text s => if s ∈ valid then some (.text s) else none
  | .list l => if ∀ x ∈ l, ∃ s ∈ x, s ∈ valid then some (.list l.reduceOption) else none
  | _ => none

/-- `is_hook_definition` and `is_valid_restricted_action`: the values such a key may have. -/
def validItems (key : List Char) : Option (List (List Char)) :=
  if key = "hooks".toList then some hookTypes
  else if key = "restricted_actions".toList then some restrictedActions
  else none

def Snippet.infoValue : Snippet → InfoValue
  | .text s => .text s
  | .plugin name => .plugin name
  | _ => .other

/-- A value that is no dict, under its key: a hook, a restricted action or an entry. -/
def loadLeaf (s : Scope) (path : List (List Char)) (w : World) (snippet : Snippet) : Option World :=
  match validItems (path.getLastD []) with
  | some valid => (snippet.toItem valid).bind (w.registerItem s path)
  | none => w.registerInfo s path (some (.new s path snippet.infoValue))

mutual

/-- `_load_registry(path, {key: value})` with `path + [key]`; `none` where the dictionary is not accepted. -/
def loadEntry (s : Scope) (path : List (List Char)) (w : World) : Snippet → Option World
  | .null => w.registerInfo s path none
  | .dict entries => if validItems (path.getLastD []) = none then loadRegistry s path w entries else none
  | .text t => loadLeaf s path w (.text t)
  | .plugin name => loadLeaf s path w (.plugin name)
  | .other => loadLeaf s path w .other
  | .list l => loadLeaf s path w (.list l)

/-- `_load_registry(path, entries)`. -/
def loadRegistry (s : Scope) (path : List (List Char)) (w : World) : List (List Char × Snippet) → Option World
  | [] => some w
  | (key, value) :: entries => (loadEntry s (path ++ [key]) w value).bind fun w => loadRegistry s path w entries

end

/-- `load`. -/
def World.load (w : World) (s : Scope) (snippet : List (List Char × Snippet)) : Option World := loadRegistry s [] w snippet

/-! ## 4. Looking up a type -/

/-- What a lookup raises. -/
inductive LookupError where
  | entityNotFound (name : List Char)
  | crash
  deriving DecidableEq, Repr

/-- An entry where a `ResourceInfo` is wanted. -/
def Entry.toInfo : Entry → Option ResourceInfo
  | .info i => some i
  | _ => none

/-- Whether an entry is true. -/
def Entry.truthy : Entry → Bool
  | .info _ => true
  | .item (.text s) => s ≠ []
  | .item (.list l) => l ≠ []
  | .dict entries => ! entries.isEmpty

namespace World

/-- A template in a user environment is registered when it is looked up. -/
def enter (w : World) (s : Scope) (resourceType : List Char) : World :=
  if s ≠ .global ∧ isTemplateName resourceType = true ∧ (w.registries s).get resourceType = none then
    let info := ResourceInfo.new s [resourceType] .other
    { w.setRegistry s ((w.registries s).set resourceType (.info info)) with
      userResource := Function.update w.userResource info true }
  else w

/-- The template that a type is. -/
def dynamic (s : Scope) (r : Registry) (resourceType : List Char) : Option (List ResourceInfo) :=
  if s ≠ .global ∧ isTemplateName resourceType = true then ((r.get resourceType).bind Entry.toInfo).map fun info => [info] else some []

/-- "handle a specific resource mapping." -/
def mapped (r : Registry) (resourceType : List Char) (resourceName : Option (List Char)) : Option (List ResourceInfo) :=
  match resourceName.filter (· ≠ []) with
  | none => some []
  | some name =>
    match r.get "resources".toList with
    | some (.dict resources) =>
      match Dict.get resources name with
      | none => some []
      | some (.dict impl) =>
        match Dict.get impl resourceType with
        | none => some []
        | some e => e.toInfo.map fun info => [info]
      | some (.item (.text s)) => if s ≠ [] ∧ resourceType <:+: s then none else some []
      | some (.item (.list l)) => if resourceType ∈ l then none else some []
      | some (.info _) => none
    | _ => none

/-- The entry of the type itself. -/
def exact (r : Registry) (resourceType : List Char) : Option (List ResourceInfo) :=
  match r.get resourceType with
  | none => some []
  | some e => if e.truthy then e.toInfo.map fun info => [info] else some []

/-- The wildcard mappings that match. -/
def globs (r : Registry) (resourceType : List Char) : Option (List ResourceInfo) :=
  ((r.filter fun e : List Char × Entry => isGlobName e.1).mapM fun e : List Char × Entry => e.2.toInfo).map fun infos => infos.filter fun info => info.matches resourceType

/-- `iterable_by`, behind the registration of a template; `none` is an exception. -/
def iterableBy (w : World) (s : Scope) (resourceType : List Char) (resourceName : Option (List Char)) : Option (List ResourceInfo) := do
  let r := w.registries s
  let dynamic ← dynamic s r resourceType
  let mapped ← mapped r resourceType resourceName
  let exact ← exact r resourceType
  let globs ← globs r resourceType
  return dynamic ++ mapped ++ exact ++ globs

/-- `sorted(matches)`: the entries of the registry and of the global one. -/
def candidates (w : World) (s : Scope) (resourceType : List Char) (resourceName : Option (List Char)) : Option (List ResourceInfo) := do
  let own ← w.iterableBy s resourceType resourceName
  let above ← (if s = .global then some [] else w.iterableBy .global resourceType resourceName)
  return (own ++ above).insertionSort fun a b => ! w.lt b a

/-- "store it to local env": what a mapping was found for under the type that was asked for. -/
def store (w : World) (s : Scope) (resourceType : List Char) (info found : ResourceInfo) : World :=
  if ! w.userResource found && ! info.isEnd then (w.registerInfo s [resourceType] (some info)).getD w else w

/-- The loop over the sorted entries; `accepts` is the filter on what they are found to be. -/
def tryInfos (lookup : World → Scope → List Char → Option (World × Except LookupError ResourceInfo)) (s : Scope) (resourceType : List Char)
    (accepts : World → ResourceInfo → Bool) : World → List ResourceInfo → Option (World × Except LookupError ResourceInfo)
  | w, [] => some (w, .error (.entityNotFound resourceType))
  | w, info :: infos =>
    match info.target resourceType with
    | none => if accepts w info then some (w, .ok info) else tryInfos lookup s resourceType accepts w infos
    | some target =>
      match lookup w info.registry target with
      | none => none
      | some (w, .error (.entityNotFound _)) => tryInfos lookup s resourceType accepts w infos
      | some (w, .error .crash) => some (w, .error .crash)
      | some (w, .ok found) =>
        if accepts w found then some (w.store s resourceType info found, .ok found)
        else tryInfos lookup s resourceType accepts w infos

/-- `get_resource_info(resource_type, resource_name)`, at most so many lookups deep. -/
def lookup (resourceName : Option (List Char)) : ℕ → World → Scope → List Char → Option (World × Except LookupError ResourceInfo)
  | 0, _, _, _ => none
  | fuel + 1, w, s, resourceType =>
    match (w.enter s resourceType).candidates s resourceType resourceName with
    | none => some (w.enter s resourceType, .error .crash)
    | some infos => tryInfos (lookup resourceName fuel) s resourceType (fun _ _ => true) (w.enter s resourceType) infos

end World

/-- The subclasses of entries that are asked for. -/
inductive RegistryType where
  | cls
  | template
  deriving DecidableEq, Repr

def ResourceInfo.isInstance (info : ResourceInfo) (registryType : RegistryType) : Bool :=
  match info.impl, registryType with
  | .cls _, .cls => true
  | .template _, .template => true
  | _, _ => false

namespace World

/-- The filter of `get_resource_info`. -/
def accepts (registryType : Option RegistryType) (ignore : Option ResourceInfo) (w : World) (found : ResourceInfo) : Bool :=
  registryType.all found.isInstance && ! ignore.any (w.same found)

/-- `get_resource_info`. -/
def getResourceInfo (fuel : ℕ) (w : World) (s : Scope) (resourceType : List Char) (resourceName : Option (List Char))
    (registryType : Option RegistryType) (ignore : Option ResourceInfo) : Option (World × Except LookupError ResourceInfo) :=
  match (w.enter s resourceType).candidates s resourceType resourceName with
  | none => some (w.enter s resourceType, .error .crash)
  | some infos =>
    tryInfos (lookup resourceName fuel) s resourceType (accepts registryType ignore) (w.enter s resourceType) infos

end World

/-! ## 5. Classes to instantiate -/

/-- The type field of a resource. -/
inductive TypeField where
  | absent
  | other
  | text (s : List Char)
  deriving DecidableEq, Repr

/-- What is instantiated for a resource. -/
inductive Instantiable where
  | value (v : InfoValue)
  | templateResource
  deriving DecidableEq, Repr

inductive ValidationError where
  | noType (resourceName : Option (List Char))
  | typeRequired (resourceName : Option (List Char))
  | typeNotString (resourceName : Option (List Char))
  | entityNotFound (name : List Char)
  | crash
  deriving DecidableEq, Repr

/-- `info.get_class_to_instantiate()`; a mapping has no class. -/
def ResourceInfo.getClassToInstantiate (info : ResourceInfo) : Option Instantiable :=
  match info.impl with
  | .cls value => some (.value value)
  | .template _ => some .templateResource
  | _ => none

namespace World

/-- `get_class_to_instantiate`. -/
def getClassToInstantiate (fuel : ℕ) (w : World) (s : Scope) (resourceType : TypeField) (resourceName : Option (List Char)) :
    Option (World × Except ValidationError (Option Instantiable)) :=
  match resourceType with
  | .absent => some (w, .error (.typeRequired resourceName))
  | .other => some (w, .error (.typeNotString resourceName))
  | .text resourceType =>
    if resourceType = [] then some (w, .error (.noType resourceName))
    else (w.getResourceInfo fuel s resourceType resourceName none none).map fun answer =>
      (answer.1, match answer.2 with
        | .ok info => .ok info.getClassToInstantiate
        | .error (.entityNotFound name) => .error (.entityNotFound name)
        | .error .crash => .error .crash)

end World

end Mitaka.Heat
