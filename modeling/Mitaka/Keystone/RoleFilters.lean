/-
  Subject: Filtering in the driver against filtering the full listing.

  The rows that are read and expanded for the filters are those of the full listing that
  match, unless the project of the filters acts as a domain: then the driver is asked with
  no target, and every inherited assignment is applied to that project.
-/
import Mitaka.Keystone.RoleListing

namespace Mitaka.Keystone

open Relation

variable {ι : Type*} [DecidableEq ι]

/-! ## 1. The rows of the filters -/

variable {dir : Directory ι}

omit [DecidableEq ι] in
theorem Directory.WellFormed.below_or_below (hdir : dir.WellFormed) {q p a : ι} (hp : dir.Below q p)
    (ha : dir.Below q a) : a = p ∨ dir.Below a p ∨ dir.Below p a := by
  rcases hdir.forest.above_total hp.to_reflTransGen ha.to_reflTransGen with h | h
  · rcases reflTransGen_iff_eq_or_transGen.mp h with h | h
    · exact Or.inl h
    · exact Or.inr (Or.inr h)
  · rcases reflTransGen_iff_eq_or_transGen.mp h with h | h
    · exact Or.inl h.symm
    · exact Or.inr (Or.inl h)

omit [DecidableEq ι] in
theorem actor_iff {row : RoleAssignment ι} {userId : Option ι} {u : ι} :
    (ReadsActor userId none row ∨ ∃ v ∈ userId, row.type.isUser = false ∧ (v, row.actorId) ∈ dir.memberships) ∧
        row.ExpandsToUser dir userId u ↔ row.Covers dir u ∧ ∀ v ∈ userId, u = v := by
  unfold ReadsActor RoleAssignment.ExpandsToUser RoleAssignment.Covers
  rw [show given (none : Option (List ι)) = none from rfl]
  cases userId with
  | none => simp
  | some v =>
    cases htype : row.type.isUser with
    | true => simp; grind
    | false => simp; grind

/-- The rows that are inherited by a project or its subtree. -/
theorem inherited_iff (hdir : dir.WellFormed) (row : RoleAssignment ι) {p : ι}
    (hp : ∃ project ∈ dir.projects, project.id = p) (hacts : ¬ dir.ActsAsDomain p) {subtreeIds : List ι}
    (hsubtree : subtreeIds = [] ∨ ∀ q, q ∈ subtreeIds ↔ dir.Below q p) (q : ι) :
    (row.type.isProject = false ∧ dir.Owns row.targetId p ∨ row.type.isProject = true ∧
        (dir.Below p row.targetId ∨ subtreeIds ≠ [] ∧ (row.targetId = p ∨ row.targetId ∈ subtreeIds))) ∧
        row.ExpandsToProject dir (some p) subtreeIds q ↔
      (if row.type.isProject then dir.Below q row.targetId else dir.Owns row.targetId q) ∧ (q = p ∨ q ∈ subtreeIds) := by
  have hbelow : ∀ x ∈ subtreeIds, dir.Below x p := fun x hx => by
    rcases hsubtree with rfl | h
    · cases hx
    · exact (h x).mp hx
  unfold RoleAssignment.ExpandsToProject
  dsimp only
  cases htype : row.type.isProject with
  | false =>
    simp only [Bool.false_eq_true, if_false, false_and, or_false, true_and]
    refine and_congr_left fun hq => ⟨fun h => ?_, fun h => ?_⟩
    · rcases hq with rfl | hq
      · exact h
      · exact hdir.owns_of_below (hbelow q hq) h
    · -- the project is in a domain, and it is the one of its subtree
      obtain ⟨project, hproject, rfl⟩ := hp
      cases hd : project.domainId with
      | none => exact absurd ⟨project, hproject, rfl, hd⟩ hacts
      | some d =>
        have howns : dir.Owns d project.id := ⟨project, hproject, rfl, hd⟩
        rcases hq with rfl | hq
        · exact h
        · obtain rfl := hdir.owns_unique h (hdir.owns_of_below (hbelow q hq) howns)
          exact howns
  | true =>
    simp only [if_true, Bool.true_eq_false, false_and, false_or, true_and]
    by_cases hwithin : subtreeIds ≠ [] ∧ (row.targetId = p ∨ row.targetId ∈ subtreeIds)
    · rw [if_pos hwithin]
      obtain ⟨hne, hwithin'⟩ := hwithin
      have hall := hsubtree.resolve_left hne
      constructor
      · rintro ⟨-, h⟩
        refine ⟨h, Or.inr ((hall q).mpr ?_)⟩
        rcases hwithin' with heq | hmem
        · rwa [heq] at h
        · exact h.trans ((hall _).mp hmem)
      · rintro ⟨h, -⟩
        exact ⟨Or.inr ⟨hne, hwithin'⟩, h⟩
    · rw [if_neg hwithin, or_iff_left hwithin]
      refine and_congr_left fun hq => ⟨fun h => ?_, fun h => ?_⟩
      · rcases hq with rfl | hq
        · exact h
        · exact (hbelow q hq).trans h
      · rcases hq with rfl | hq
        · exact h
        · have hne : subtreeIds ≠ [] := List.ne_nil_of_mem hq
          rcases hdir.below_or_below (hbelow q hq) h with heq | hbelow | habove
          · exact absurd ⟨hne, Or.inl heq⟩ hwithin
          · exact absurd ⟨hne, Or.inr ((hsubtree.resolve_left hne _).mpr hbelow)⟩ hwithin
          · exact habove

/-- Only a project or a domain is given, and inheritance is not asked for a project that acts as a domain. -/
structure Filters.Direct (dir : Directory ι) (conf : AssignmentConf) (filters : Filters ι) : Prop where
  single : filters.projectId = none ∨ filters.domainId = none
  acting : conf.osInherit = true → ∀ p ∈ filters.projectId, ¬ dir.ActsAsDomain p

section Exact

variable {dir : Directory ι} (hdir : dir.WellFormed) {conf : AssignmentConf} {filters : Filters ι}
  (hfilters : filters.WellFormed dir) (hdirect : filters.Direct dir conf) {subtreeIds : List ι}
  (hsubtree : ∀ q, q ∈ subtreeIds ↔ filters.includeSubtree = true ∧ ∃ p ∈ filters.projectId, dir.Below q p)

include hsubtree

omit [DecidableEq ι] in
theorem matchesTarget_project {p : ι} (hp : filters.projectId = some p) (hd : filters.domainId = none) (q : ι) :
    filters.MatchesTarget dir (.project q) ↔ q = p ∨ q ∈ subtreeIds := by
  rw [Filters.MatchesTarget, hsubtree, hp, hd]
  simp

include hdirect

theorem direct_target_iff {row : RoleAssignment ι} (hrow : row.inherited = false) {inherited : Option Bool}
    (hinherited : inherited ≠ some true) (target : Target ι) :
    ReadsTarget dir inherited filters.projectId subtreeIds filters.domainId row ∧
        row.ExpandsToTarget dir filters.projectId subtreeIds target ↔
      row.On dir conf target ∧ filters.MatchesTarget dir target := by
  unfold ReadsTarget RoleAssignment.ExpandsToTarget RoleAssignment.On
  rw [hrow]
  simp only [Bool.false_eq_true, if_false, hinherited, ne_eq, not_false_eq_true, true_and]
  rw [and_comm]
  refine and_congr_right fun htarget => ?_
  rw [htarget, RoleAssignment.target]
  cases hp : filters.projectId with
  | some p =>
    have hd := hdirect.single.resolve_left (by rw [hp]; exact Option.some_ne_none p)
    cases htype : row.type.isProject with
    | true =>
      rw [if_pos rfl, matchesTarget_project hsubtree hp hd]
      simp
    | false =>
      rw [if_neg Bool.false_ne_true, Filters.MatchesTarget, hp]
      simp
  | none =>
    rw [Filters.MatchesTarget, hp]
    cases htype : row.type.isProject with
    | true => simp
    | false => simp

include hdir hfilters

theorem inherited_target_iff {row : RoleAssignment ι} (hrow : row.inherited = true) (target : Target ι) :
    ReadsTarget dir (if filters.domainId.isSome then some false else if conf.osInherit then none else some false)
          filters.projectId subtreeIds filters.domainId row ∧
        row.ExpandsToTarget dir filters.projectId subtreeIds target ↔
      row.On dir conf target ∧ filters.MatchesTarget dir target := by
  unfold ReadsTarget RoleAssignment.ExpandsToTarget RoleAssignment.On
  rw [if_pos hrow, if_pos hrow, if_pos hrow]
  cases hd : filters.domainId with
  | some d =>
    -- a domain does not inherit
    refine ⟨fun h => absurd rfl h.1.1, ?_⟩
    rintro ⟨⟨-, q, rfl, -⟩, -, hdomain⟩
    exact nomatch hdomain d hd
  | none =>
    cases hinherit : conf.osInherit with
    | false => simp
    | true =>
      cases hp : filters.projectId with
      | none => simp [RoleAssignment.ExpandsToProject, Filters.MatchesTarget, hp, hd]
      | some p =>
        have hacts := hdirect.acting hinherit p hp
        have hsub : subtreeIds = [] ∨ ∀ q, q ∈ subtreeIds ↔ dir.Below q p := by
          cases hinclude : filters.includeSubtree with
          | false =>
            refine Or.inl (List.eq_nil_iff_forall_not_mem.mpr fun q hq => ?_)
            exact absurd ((hsubtree q).mp hq).1 (by rw [hinclude]; exact Bool.false_ne_true)
          | true => exact Or.inr fun q => by rw [hsubtree, hinclude, hp]; simp
        have hiff := inherited_iff hdir row (hfilters.project p hp) hacts hsub
        constructor
        · rintro ⟨⟨-, hreads⟩, q, rfl, hexpands⟩
          obtain ⟨hon, hq⟩ := (hiff q).mp ⟨(hreads p rfl).resolve_left hacts, hexpands⟩
          exact ⟨⟨rfl, q, rfl, hon⟩, (matchesTarget_project hsubtree hp hd q).mpr hq⟩
        · rintro ⟨⟨-, q, rfl, hon⟩, hmatches⟩
          obtain ⟨hreads, hexpands⟩ := (hiff q).mpr ⟨hon, (matchesTarget_project hsubtree hp hd q).mp hmatches⟩
          refine ⟨⟨by simp, fun a ha => ?_⟩, q, rfl, hexpands⟩
          cases Option.mem_some.mp ha
          exact Or.inr hreads

/-- A row reaches what it is on and what matches. -/
theorem reaches_iff (row : RoleAssignment ι) (u : ι) (target : Target ι) :
    Reaches dir conf filters subtreeIds row u target ↔
      (row.Covers dir u ∧ row.On dir conf target) ∧ (∀ v ∈ filters.userId, u = v) ∧ filters.MatchesTarget dir target := by
  have htarget : ReadsTarget dir
        (if filters.domainId.isSome then some false else if conf.osInherit then none else some false)
          filters.projectId subtreeIds filters.domainId row ∧
        row.ExpandsToTarget dir filters.projectId subtreeIds target ↔
      row.On dir conf target ∧ filters.MatchesTarget dir target := by
    cases hrow : row.inherited with
    | true => exact inherited_target_iff hdir hfilters hdirect hsubtree hrow target
    | false =>
      refine direct_target_iff hdirect hsubtree hrow ?_ target
      cases filters.domainId.isSome <;> cases conf.osInherit <;> simp
  unfold Reaches
  rw [show ∀ A B C D : Prop, (A ∧ B ∧ C ∧ D) ↔ (A ∧ C) ∧ B ∧ D by tauto, actor_iff, htarget]
  tauto

end Exact

/-! ## 2. The filtered and the full listing -/

/-- Every assignment of the listings has a triple; the triples for the filters are those of the full listing that match;
those of the full listing for a project are the closure of what is assigned. -/
def ListsExactly (dir : Directory ι) (conf : AssignmentConf) (rows : List (RoleAssignment ι)) (strip : Bool)
    (filters : Filters ι) : Prop :=
  ∃ n refs all,
    (∀ m ≥ n, listRoleAssignments dir conf rows m filters strip = some refs ∧
      listRoleAssignments dir conf rows m {} strip = some all) ∧
    (∀ ref ∈ refs ++ all, ref.triple.isSome = true) ∧
    (∀ t, t ∈ triples refs ↔ t ∈ triples all ∧ filters.Matches dir t) ∧
    ∀ userId projectId roleId, ⟨userId, roleId, .project projectId⟩ ∈ triples all ↔
      Effective dir conf rows strip ⟨userId, roleId, .project projectId⟩

section Listings

variable {dir : Directory ι} (hdir : dir.WellFormed) {conf : AssignmentConf} {rows : List (RoleAssignment ι)}
  (hrows : ∀ row ∈ rows, row.WellFormed dir) {filters : Filters ι} (hfilters : filters.WellFormed dir) {strip : Bool}

include hdir hrows

/-- **The full listing is the closure of what is assigned.** -/
theorem full_listing_spec (conf : AssignmentConf) (strip : Bool) : ∃ n all, (∀ m ≥ n, listRoleAssignments dir conf rows m {} strip = some all) ∧
    Yields all (Effective dir conf rows strip) := by
  have hnone : Filters.WellFormed dir {} := ⟨nofun, nofun⟩
  have hdirect : Filters.Direct dir conf {} := ⟨Or.inl rfl, fun _ => nofun⟩
  obtain ⟨subtreeIds, hsubtree, n, all, hall, hyields⟩ := listRoleAssignments_spec hdir hrows conf hnone strip
  refine ⟨n, all, hall, hyields.congr fun t => ?_⟩
  constructor
  · rintro ⟨⟨row, hrow, hreaches, hclosure⟩, hlists, -⟩
    obtain ⟨⟨hcovers, hon⟩, -⟩ := (reaches_iff hdir hnone hdirect hsubtree row _ _).mp hreaches
    exact ⟨⟨row, hrow, hcovers, hon, hclosure⟩, hlists⟩
  · rintro ⟨⟨row, hrow, hcovers, hon, hclosure⟩, hlists⟩
    exact ⟨⟨row, hrow, (reaches_iff hdir hnone hdirect hsubtree row _ _).mpr ⟨⟨hcovers, hon⟩, nofun, nofun, nofun⟩,
      hclosure⟩, hlists, nofun⟩

include hfilters

/-- In an exact listing, what is read and expanded is assigned and matches. -/
theorem ListsExactly.sound (h : ListsExactly dir conf rows strip filters) :
    ∃ subtreeIds : List ι,
      (∀ q, q ∈ subtreeIds ↔ filters.includeSubtree = true ∧ ∃ p ∈ filters.projectId, dir.Below q p) ∧
      ∀ t : Triple ι, (∃ row ∈ rows, Reaches dir conf filters subtreeIds row t.userId t.target ∧
          ReflTransGen (dir.Implies conf) row.roleId t.roleId) → dir.Lists strip t.roleId →
        (∀ roleId ∈ filters.roleId, t.roleId = roleId) → Effective dir conf rows strip t ∧ filters.Matches dir t := by
  obtain ⟨n, refs, all, hrefs, -, hexact, -⟩ := h
  obtain ⟨subtreeIds, hsubtree, n', refs', hrefs', hyields⟩ := listRoleAssignments_spec hdir hrows conf hfilters strip
  obtain ⟨k, all', hall', hfull⟩ := full_listing_spec hdir hrows conf strip
  obtain ⟨hm, hm'⟩ := hrefs (max n (max n' k)) (le_max_left _ _)
  rw [hrefs' _ (le_max_of_le_right (le_max_left _ _))] at hm
  rw [hall' _ (le_max_of_le_right (le_max_right _ _))] at hm'
  cases hm
  cases hm'
  refine ⟨subtreeIds, hsubtree, fun t hrow hlists hrole => ?_⟩
  obtain ⟨hmem, hmatches⟩ := (hexact t).mp ((hyields.mem_triples t).mpr ⟨hrow, hlists, hrole⟩)
  exact ⟨(hfull.mem_triples t).mp hmem, hmatches⟩

omit [DecidableEq ι] hfilters in
theorem exists_of_covers {row : RoleAssignment ι} (hrow : row ∈ rows) {u : ι} (h : row.Covers dir u) : u ∈ dir.users := by
  unfold RoleAssignment.Covers at h
  have hactor := (hrows row hrow).actor
  cases htype : row.type.isUser with
  | true =>
    rw [htype, if_pos rfl] at h hactor
    rwa [← h]
  | false =>
    rw [htype, if_neg Bool.false_ne_true] at h
    exact (hdir.members _ h).1

/-- Filters that some role and some user pass are exact if they are direct. -/
theorem lists_exactly_of_direct (h : ∀ role ∈ dir.roles, ∀ user ∈ dir.users,
      (∀ roleId ∈ filters.roleId, role.id = roleId) → (∀ userId ∈ filters.userId, user = userId) →
      (strip = true → role.domainId = none) → filters.Direct dir conf) :
    ListsExactly dir conf rows strip filters := by
  obtain ⟨subtreeIds, hsubtree, n, refs, hrefs, hyields⟩ := listRoleAssignments_spec hdir hrows conf hfilters strip
  obtain ⟨n', all, hall, hfull⟩ := full_listing_spec hdir hrows conf strip
  have hdirect : ∀ row ∈ rows, ∀ t : Triple ι, row.Covers dir t.userId → ReflTransGen (dir.Implies conf) row.roleId t.roleId →
      dir.Lists strip t.roleId → (∀ roleId ∈ filters.roleId, t.roleId = roleId) →
      (∀ userId ∈ filters.userId, t.userId = userId) → filters.Direct dir conf := by
    intro row hrow t hcovers hclosure hlists hroleId huserId
    obtain ⟨role, hrole, hid⟩ := role_of_closure hdir hrows conf hrow hclosure
    refine h role hrole t.userId (exists_of_covers hdir hrows hrow hcovers) (by rwa [hid]) huserId fun hstrip => ?_
    obtain ⟨role', hrole', hid', hdomain⟩ := hlists hstrip
    rwa [List.inj_on_of_nodup_map hdir.roles hrole' hrole (hid'.trans hid.symm)] at hdomain
  refine ⟨max n n', refs, all, fun m hm => ⟨hrefs m (le_of_max_le_left hm), hall m (le_of_max_le_right hm)⟩, ?_,
    fun t => ?_, fun u p r => hfull.mem_triples _⟩
  · intro ref href
    rcases List.mem_append.mp href with href | href
    · obtain ⟨t, ht, -⟩ := hyields.1 ref href
      rw [ht]
      rfl
    · obtain ⟨t, ht, -⟩ := hfull.1 ref href
      rw [ht]
      rfl
  · rw [hyields.mem_triples, hfull.mem_triples]
    constructor
    · rintro ⟨⟨row, hrow, hreaches, hclosure⟩, hlists, hroleId⟩
      obtain ⟨hcovers, huserId⟩ := actor_iff.mp ⟨hreaches.1, hreaches.2.2.1⟩
      have hd := hdirect row hrow t hcovers hclosure hlists hroleId huserId
      obtain ⟨⟨-, hon⟩, -, hmatches⟩ := (reaches_iff hdir hfilters hd hsubtree row _ _).mp hreaches
      exact ⟨⟨⟨row, hrow, hcovers, hon, hclosure⟩, hlists⟩, hroleId, huserId, hmatches⟩
    · rintro ⟨⟨⟨row, hrow, hcovers, hon, hclosure⟩, hlists⟩, hroleId, huserId, hmatches⟩
      have hd := hdirect row hrow t hcovers hclosure hlists hroleId huserId
      exact ⟨⟨row, hrow, (reaches_iff hdir hfilters hd hsubtree row _ _).mpr ⟨⟨hcovers, hon⟩, huserId, hmatches⟩,
        hclosure⟩, hlists, hroleId⟩

end Listings

/-- A direct assignment on a project is listed when the domain of the filters is another target. -/
theorem not_single (hdir : dir.WellFormed) {conf : AssignmentConf} {filters : Filters ι}
    (hfilters : filters.WellFormed dir) {strip : Bool} {role : Role ι} (hrole : role ∈ dir.roles) {user : ι}
    (huser : user ∈ dir.users) (hroleId : ∀ roleId ∈ filters.roleId, role.id = roleId)
    (huserId : ∀ userId ∈ filters.userId, user = userId) (hstrip : strip = true → role.domainId = none)
    {p d : ι} (hp : filters.projectId = some p) (hd : filters.domainId = some d) :
    ¬ ListsExactly dir conf [⟨.userProject, user, p, role.id, false⟩] strip filters := by
  intro h
  obtain ⟨project, hproject, hid⟩ := hfilters.project p hp
  have hrows : ∀ row ∈ [(⟨.userProject, user, p, role.id, false⟩ : RoleAssignment ι)], row.WellFormed dir := by
    intro row hrow
    cases List.mem_singleton.mp hrow
    exact ⟨⟨role, hrole, rfl⟩, huser, project, hproject, hid, Or.inl rfl⟩
  obtain ⟨subtreeIds, -, hsound⟩ := h.sound hdir hrows hfilters
  have hreaches : Reaches dir conf filters subtreeIds ⟨.userProject, user, p, role.id, false⟩ user (.project p) := by
    refine ⟨Or.inl ⟨fun u hu => ⟨rfl, huserId u hu⟩, nofun⟩, ⟨?_, fun q hq => ?_, fun hnone => ?_⟩, rfl, rfl⟩
    · rw [hd]
      exact fun h => nomatch h
    · rw [hp] at hq
      cases Option.mem_some.mp hq
      exact ⟨rfl, Or.inl rfl⟩
    · rw [hp] at hnone
      cases hnone
  obtain ⟨-, -, -, -, hdomain⟩ := hsound ⟨user, role.id, .project p⟩ ⟨_, List.mem_singleton_self _, hreaches, .refl⟩
    (fun h => ⟨role, hrole, rfl, hstrip h⟩) hroleId
  exact nomatch hdomain d hd

/-- An assignment that is inherited from a domain is listed on the domain itself. -/
theorem not_acting (hdir : dir.WellFormed) {conf : AssignmentConf} {filters : Filters ι}
    (hfilters : filters.WellFormed dir) {strip : Bool} {role : Role ι} (hrole : role ∈ dir.roles) {user : ι}
    (huser : user ∈ dir.users) (hroleId : ∀ roleId ∈ filters.roleId, role.id = roleId)
    (huserId : ∀ userId ∈ filters.userId, user = userId) (hstrip : strip = true → role.domainId = none)
    (hinherit : conf.osInherit = true) {p d : ι} (hp : filters.projectId = some p) (hd : filters.domainId = none)
    (hacts : dir.ActsAsDomain p) (hdomain : dir.ActsAsDomain d) :
    ¬ ListsExactly dir conf [⟨.userDomain, user, d, role.id, true⟩] strip filters := by
  intro h
  obtain ⟨domain, hmem, hid, hnone⟩ := hdomain
  have hrows : ∀ row ∈ [(⟨.userDomain, user, d, role.id, true⟩ : RoleAssignment ι)], row.WellFormed dir := by
    intro row hrow
    cases List.mem_singleton.mp hrow
    exact ⟨⟨role, hrole, rfl⟩, huser, domain, hmem, hid, Or.inr hnone⟩
  obtain ⟨subtreeIds, -, hsound⟩ := h.sound hdir hrows hfilters
  have hreaches : Reaches dir conf filters subtreeIds ⟨.userDomain, user, d, role.id, true⟩ user (.project p) := by
    refine ⟨Or.inl ⟨fun u hu => ⟨rfl, huserId u hu⟩, nofun⟩, ⟨?_, fun q hq => ?_⟩, rfl, p, rfl, ?_⟩
    · rw [hd, hinherit]
      exact fun h => nomatch h
    · rw [hp] at hq
      cases Option.mem_some.mp hq
      exact Or.inl hacts
    · unfold RoleAssignment.ExpandsToProject
      rw [hp]
      exact Or.inl rfl
  obtain ⟨⟨⟨row, hrow, -, hon, -⟩, -⟩, -⟩ := hsound ⟨user, role.id, .project p⟩
    ⟨_, List.mem_singleton_self _, hreaches, .refl⟩ (fun h => ⟨role, hrole, rfl, hstrip h⟩) hroleId
  cases List.mem_singleton.mp hrow
  obtain ⟨-, q, heq, howns⟩ := hon
  cases heq
  exact (hdir.not_below_of_actsAsDomain hacts).2 howns

/-- **The filters are exact for all assignments if and only if they are direct**, where some role and some user pass. -/
theorem effective_listing_exact_iff {dir : Directory ι} (hdir : dir.WellFormed) (conf : AssignmentConf)
    {filters : Filters ι} (hfilters : filters.WellFormed dir) (strip : Bool) :
    (∀ rows : List (RoleAssignment ι), (∀ row ∈ rows, row.WellFormed dir) → ListsExactly dir conf rows strip filters) ↔
      ∀ role ∈ dir.roles, ∀ user ∈ dir.users,
        (∀ roleId ∈ filters.roleId, role.id = roleId) → (∀ userId ∈ filters.userId, user = userId) →
        (strip = true → role.domainId = none) → filters.Direct dir conf := by
  refine ⟨fun h role hrole user huser hroleId huserId hstrip => ?_, fun h rows hrows =>
    lists_exactly_of_direct hdir hrows hfilters h⟩
  have hsingle : filters.projectId = none ∨ filters.domainId = none := by
    cases hp : filters.projectId with
    | none => exact Or.inl rfl
    | some p =>
      cases hd : filters.domainId with
      | none => exact Or.inr rfl
      | some d =>
        obtain ⟨project, hproject, hid⟩ := hfilters.project p hp
        refine absurd (h [⟨.userProject, user, p, role.id, false⟩] fun row hrow => ?_)
          (not_single hdir hfilters hrole huser hroleId huserId hstrip hp hd)
        cases List.mem_singleton.mp hrow
        exact ⟨⟨role, hrole, rfl⟩, huser, project, hproject, hid, Or.inl rfl⟩
  refine ⟨hsingle, fun hinherit p hp hacts => ?_⟩
  have hd := hsingle.resolve_left (by rw [Option.mem_def.mp hp]; exact Option.some_ne_none p)
  obtain ⟨project, hproject, hid, hnone⟩ := hacts
  refine absurd (h [⟨.userDomain, user, p, role.id, true⟩] fun row hrow => ?_)
    (not_acting hdir hfilters hrole huser hroleId huserId hstrip hinherit hp hd ⟨project, hproject, hid, hnone⟩
      ⟨project, hproject, hid, hnone⟩)
  cases List.mem_singleton.mp hrow
  exact ⟨⟨role, hrole, rfl⟩, huser, project, hproject, hid, Or.inr hnone⟩

/-- The domains 1 and 2, a project of the first and one below it, a user and two roles. -/
def twoDomains : Directory ℕ where
  projects := [⟨1, none, none⟩, ⟨2, none, none⟩, ⟨3, some 1, some 1⟩, ⟨4, some 1, some 3⟩]
  users := [5]
  groups := [6]
  memberships := [(5, 6)]
  roles := [⟨7, none⟩, ⟨8, none⟩]
  implications := [(7, 8)]

theorem twoDomains_wellFormed : twoDomains.WellFormed := by
  have hstep : ∀ x y, twoDomains.nodes.IsParent x y → y < x := by
    rintro x y ⟨p, hp, rfl, hy⟩
    have hall : ∀ p ∈ twoDomains.projects, ∀ y ∈ p.parentId, y < p.id := by decide
    exact hall p hp y hy
  have hbelow : ∀ x y, TransGen twoDomains.nodes.IsParent x y → y < x := by
    intro x y h
    induction h with
    | single h => exact hstep _ _ h
    | tail _ h ih => exact (hstep _ _ h).trans ih
  refine ⟨⟨by decide, ?_, fun x h => Nat.lt_irrefl x (hbelow x x h)⟩, ?_, ?_, by decide, by decide, by decide⟩
  · intro p hp y hy
    have hall : ∀ p ∈ twoDomains.projects, ∀ y ∈ p.parentId, ∃ q ∈ twoDomains.projects, q.id = y := by decide
    exact hall p hp y hy
  · intro p hp d hd
    have hall : ∀ p ∈ twoDomains.projects, ∀ d ∈ p.domainId, ∃ q ∈ twoDomains.projects, q.id = d ∧ q.domainId = none := by
      decide
    exact hall p hp d hd
  · decide

theorem effective_listing_exact_iff_subtree :
    ListsExactly twoDomains ⟨true, true⟩ [⟨.groupDomain, 6, 1, 7, true⟩, ⟨.userProject, 5, 3, 8, false⟩] true
      { projectId := some 3, includeSubtree := true } := by
  have hfilters : Filters.WellFormed twoDomains { projectId := some 3, includeSubtree := true } :=
    ⟨nofun, fun p hp => by
      cases Option.mem_some.mp hp
      exact ⟨⟨3, some 1, some 1⟩, by decide, rfl⟩⟩
  refine (effective_listing_exact_iff twoDomains_wellFormed ⟨true, true⟩ hfilters true).mpr
    (fun _ _ _ _ _ _ _ => ⟨Or.inr rfl, fun _ p hp => ?_⟩) _ fun row hrow => ?_
  · cases Option.mem_some.mp hp
    rintro ⟨project, hproject, hid, hnone⟩
    have hall : ∀ project ∈ twoDomains.projects, project.id = 3 → project.domainId ≠ none := by decide
    exact hall project hproject hid hnone
  · rcases List.mem_cons.mp hrow with rfl | hrow
    · exact ⟨by decide, by decide, by decide⟩
    · cases List.mem_singleton.mp hrow
      exact ⟨by decide, by decide, by decide⟩

/-- **A role inherited from the domain 1 is listed for the domain 2 as a project.** -/
theorem effective_listing_of_other_domain :
    ¬ ListsExactly twoDomains ⟨true, true⟩ [⟨.userDomain, 5, 1, 7, true⟩] true { projectId := some 2 } := by
  have hfilters : Filters.WellFormed twoDomains { projectId := some 2 } :=
    ⟨nofun, fun p hp => by
      cases Option.mem_some.mp hp
      exact ⟨⟨2, none, none⟩, by decide, rfl⟩⟩
  exact not_acting twoDomains_wellFormed hfilters (show (⟨7, none⟩ : Role ℕ) ∈ twoDomains.roles by decide) (by decide) nofun nofun (fun _ => rfl) rfl
    rfl rfl ⟨⟨2, none, none⟩, by decide, rfl, rfl⟩ ⟨⟨1, none, none⟩, by decide, rfl, rfl⟩

end Mitaka.Keystone
