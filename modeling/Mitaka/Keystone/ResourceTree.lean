/-
  Subject: The tree of projects: its invariant and what keeps it.

  `Reaches`: a project is a number of steps under a domain. `Inv`: every regular project
  reaches its own domain within the depth, and an enabled one has an enabled parent. New
  rows, rows that keep their place and rows removed with all below them keep it
  (`Inv.append`, `Inv.map`, `Inv.remove`).
-/
import Mitaka.Lib.Fallible
import Mitaka.Keystone.Resource

namespace Mitaka.Keystone.Resource

open Fallible List

variable {db db' : Db} {depth : ℕ} {p q original : Project} {projectId : ℕ}

/-! ## 1. The tree -/

/-- Following `parent_id` from the project, `n` steps to a domain. -/
inductive Reaches (db : Db) : Project → ℕ → ℕ → Prop
  | domain {p : Project} : p ∈ db → p.isDomain = true → Reaches db p p.id 0
  | up {p q : Project} {d n : ℕ} : p ∈ db → p.isDomain = false → q ∈ db → p.parentId = some q.id → Reaches db q d n →
      Reaches db p d (n + 1)

structure Inv (depth : ℕ) (db : Db) : Prop where
  nodup : (db.map Project.id).Nodup
  root : ∀ p ∈ db, p.isDomain = true → p.parentId = none ∧ p.domainId = none
  reaches : ∀ p ∈ db, p.isDomain = false → ∃ d n, Reaches db p d n ∧ n ≤ depth ∧ p.domainId = some d
  enabled : ∀ p ∈ db, ∀ q ∈ db, p.isDomain = false → q.isDomain = false → p.parentId = some q.id → p.enabled = true →
    q.enabled = true

theorem Inv.eq_of_id (h : Inv depth db) (hp : p ∈ db) (hq : q ∈ db) (hid : p.id = q.id) : p = q :=
  inj_on_of_nodup_map h.nodup hp hq hid

/-- Every project reaches a domain. -/
theorem Inv.exists_reaches (h : Inv depth db) (hp : p ∈ db) : ∃ d n, Reaches db p d n := by
  cases hdomain : p.isDomain with
  | true => exact ⟨p.id, 0, .domain hp hdomain⟩
  | false =>
    obtain ⟨d, n, hreaches, -⟩ := h.reaches p hp hdomain
    exact ⟨d, n, hreaches⟩

/-- A project with a parent is regular, and the parent is there. -/
theorem Inv.parent (h : Inv depth db) (hp : p ∈ db) {j : ℕ} (hj : p.parentId = some j) :
    p.isDomain = false ∧ ∃ q ∈ db, q.id = j := by
  obtain ⟨d, n, hreaches⟩ := h.exists_reaches hp
  cases hreaches with
  | domain _ hdomain => exact nomatch hj.symm.trans (h.root p hp hdomain).1
  | up _ hregular hq hparent _ =>
    rw [hparent] at hj
    exact ⟨hregular, _, hq, Option.some.inj hj⟩

theorem Inv.isParent (h : Inv depth db) (hp : p ∈ db) {y : ℕ} :
    (nodes db).IsParent p.id y ↔ p.parentId = some y := by
  constructor
  · rintro ⟨a, ha, hid, hparent⟩
    rw [← h.eq_of_id ha hp hid]
    exact hparent
  · exact fun hparent => ⟨p, hp, rfl, hparent⟩

variable {d n : ℕ}

/-- The number of steps decreases upwards. -/
theorem Inv.above_reaches (h : Inv depth db) {x y : ℕ} (hxy : Relation.TransGen (nodes db).IsParent x y)
    (hp : ∃ p ∈ db, p.id = x ∧ Reaches db p d n) : ∃ m < n, ∃ q ∈ db, q.id = y ∧ Reaches db q d m := by
  have hone : ∀ {x y n}, (nodes db).IsParent x y → (∃ p ∈ db, p.id = x ∧ Reaches db p d n) →
      ∃ m < n, ∃ q ∈ db, q.id = y ∧ Reaches db q d m := by
    rintro x y n hxy ⟨p, hp, rfl, hreaches⟩
    have hparent := (h.isParent hp).mp hxy
    cases hreaches with
    | domain hp' hdomain => exact nomatch hparent.symm.trans (h.root _ hp' hdomain).1
    | up _ _ hq hparent' hreaches =>
      rw [hparent'] at hparent
      exact ⟨_, Nat.lt_succ_self _, _, hq, Option.some.inj hparent, hreaches⟩
  induction hxy with
  | single hstep => exact hone hstep hp
  | tail _ hstep ih =>
    obtain ⟨m, hm, hq⟩ := ih
    obtain ⟨m', hm', hq'⟩ := hone hstep hq
    exact ⟨m', hm'.trans hm, hq'⟩

theorem Inv.isForest (h : Inv depth db) : (nodes db).IsForest where
  nodup := h.nodup
  parent p hp j hj := (h.parent hp hj).2
  acyclic x hx := by
    -- a project above itself would be fewer steps below its domain than it is
    have hno : ∀ n d, ¬ ∃ p ∈ db, p.id = x ∧ Reaches db p d n := by
      intro n d
      induction n using Nat.strongRecOn with
      | ind n ih =>
        intro hp
        obtain ⟨m, hm, hq⟩ := h.above_reaches hx hp
        exact ih m hm hq
    obtain ⟨y, hy, -⟩ := Relation.TransGen.head'_iff.mp hx
    obtain ⟨p, hp, hid, -⟩ := hy
    obtain ⟨d, n, hreaches⟩ := h.exists_reaches hp
    exact hno n d ⟨p, hp, hid, hreaches⟩

/-! ## 2. What the driver reads -/

theorem find?_eq_some (h : (db.map Project.id).Nodup) :
    db.find? (fun p => p.id = projectId) = some p ↔ p ∈ db ∧ p.id = projectId := by
  have hid : ∀ {q}, db.find? (fun p => p.id = projectId) = some q → q.id = projectId := fun hq => by
    simpa using find?_some hq
  refine ⟨fun hfind => ⟨mem_of_find?_eq_some hfind, hid hfind⟩, ?_⟩
  rintro ⟨hp, hpid⟩
  obtain ⟨q, hq⟩ : ∃ q, db.find? (fun p => p.id = projectId) = some q :=
    Option.isSome_iff_exists.mp (find?_isSome.mpr ⟨p, hp, decide_eq_true hpid⟩)
  rw [hq, inj_on_of_nodup_map h (mem_of_find?_eq_some hq) hp ((hid hq).trans hpid.symm)]

theorem getProject_eq_ok (h : (db.map Project.id).Nodup) : getProject db projectId = .ok p ↔ p ∈ db ∧ p.id = projectId := by
  rw [← find?_eq_some h, getProject]
  cases db.find? fun p => p.id = projectId with
  | none => exact ⟨nofun, nofun⟩
  | some q => rw [Except.ok.injEq, Option.some.injEq]

theorem getProject?_eq_ok (h : (db.map Project.id).Nodup) {x : Option ℕ} :
    getProject? db x = .ok p ↔ p ∈ db ∧ x = some p.id := by
  cases x with
  | none => exact ⟨nofun, fun h => nomatch h.2⟩
  | some i =>
    rw [getProject?, getProject_eq_ok h, Option.some.injEq, eq_comm (a := i)]

/-- The projects below. -/
def Below (db : Db) (projectId : ℕ) (p : Project) : Prop := Relation.TransGen (nodes db).IsParent p.id projectId

variable {l : List Project}

theorem listProjectsInSubtree_eq_ok (h : Inv depth db) (hl : listProjectsInSubtree db projectId = .ok l) :
    ∀ p, p ∈ l ↔ p ∈ db ∧ Below db projectId p := by
  rw [listProjectsInSubtree, bind_eq_ok] at hl
  obtain ⟨-, -, hl⟩ := hl
  obtain ⟨l', hl', hmem⟩ := h.isForest.subtree_spec projectId
  rw [hl'] at hl
  cases hl
  exact hmem

theorem listProjectParents_eq_ok (h : Inv depth db) (hp : p ∈ db)
    (hl : listProjectParents db p.id = .ok l) : ∀ q ∈ db, p.parentId = some q.id → q ∈ l := by
  rw [listProjectParents, bind_eq_ok] at hl
  obtain ⟨p', hp', hl⟩ := hl
  obtain ⟨hp', hid⟩ := (getProject_eq_ok h.nodup).mp hp'
  obtain rfl := h.eq_of_id hp' hp hid
  obtain ⟨l', hl', hmem⟩ := h.isForest.parents_spec (g := nodes db) hp
  rw [hl'] at hl
  cases hl
  exact fun q hq hparent => (hmem q).mpr ⟨hq, .single ((h.isParent hp).mpr hparent)⟩

/-- As many parents as steps. -/
theorem parentsLoop_length (h : Inv depth db) (hreaches : Reaches db p d n) {k : ℕ} {examined : List ℕ}
    {ps l : List Project} (hl : (nodes db).parentsLoop k p examined ps = some l) : l.length = ps.length + n := by
  induction hreaches generalizing k examined ps with
  | @domain p hp hdomain =>
    cases k with
    | zero => cases hl
    | succ k =>
      have hparent : (nodes db).parent p = none := (h.root p hp hdomain).1
      rw [Nodes.parentsLoop, hparent] at hl
      cases hl
      rfl
  | @up p q d n hp hregular hq hparent _ ih =>
    cases k with
    | zero => cases hl
    | succ k =>
      have hparent : (nodes db).parent p = some q.id := hparent
      rw [Nodes.parentsLoop, hparent] at hl
      dsimp only at hl
      split at hl
      · cases hl
      · have hfind : (nodes db).list.find? (fun b => (nodes db).id b = q.id) = some q :=
          (find?_eq_some h.nodup).mpr ⟨hq, rfl⟩
        rw [hfind, Option.bind_some] at hl
        rw [ih hl, length_append, length_singleton, Nat.add_assoc, Nat.add_comm 1 n]

theorem listProjectParents_length (h : Inv depth db) (hp : p ∈ db)
    (hl : listProjectParents db p.id = .ok l) (hreaches : Reaches db p d n) : l.length = n := by
  rw [listProjectParents, bind_eq_ok] at hl
  obtain ⟨p', hp', hl⟩ := hl
  obtain ⟨hp', hid⟩ := (getProject_eq_ok h.nodup).mp hp'
  obtain rfl := h.eq_of_id hp' hp hid
  split at hl
  next l' hl' =>
    cases hl
    rw [parentsLoop_length h hreaches hl', length_nil, Nat.zero_add]
  next => cases hl

/-! ## 3. Changes of the table -/

theorem Reaches.append {r : Project} (h : Reaches db p d n) : Reaches (db ++ [r]) p d n := by
  induction h with
  | domain hp hdomain => exact .domain (mem_append_left _ hp) hdomain
  | up hp hregular hq hparent _ ih => exact .up (mem_append_left _ hp) hregular (mem_append_left _ hq) hparent ih

/-- **A new row**, a domain or one under an enabled project. -/
theorem Inv.append (h : Inv depth db) (hfresh : ∀ q ∈ db, q.id ≠ p.id)
    (hroot : p.isDomain = true → p.parentId = none ∧ p.domainId = none)
    (hregular : p.isDomain = false → ∃ q ∈ db, p.parentId = some q.id ∧ q.enabled = true ∧
      ∃ d n, Reaches db q d n ∧ n + 1 ≤ depth ∧ p.domainId = some d) : Inv depth (db ++ [p]) where
  nodup := by
    rw [map_append]
    refine h.nodup.append (nodup_singleton _) fun i hi hi' => ?_
    obtain ⟨q, hq, rfl⟩ := List.mem_map.mp hi
    exact hfresh q hq (mem_singleton.mp hi')
  root q hq hdomain := by
    rcases mem_append.mp hq with hq | hq
    · exact h.root q hq hdomain
    · obtain rfl := mem_singleton.mp hq
      exact hroot hdomain
  reaches q hq hreg := by
    rcases mem_append.mp hq with hq | hq
    · obtain ⟨d, n, hreaches, hrest⟩ := h.reaches q hq hreg
      exact ⟨d, n, hreaches.append, hrest⟩
    · obtain rfl := mem_singleton.mp hq
      obtain ⟨u, hu, hparent, -, d, n, hreaches, hle, hdomain⟩ := hregular hreg
      exact ⟨d, n + 1, .up (mem_append_right _ hq) hreg (mem_append_left _ hu) hparent hreaches.append, hle, hdomain⟩
  enabled q hq u hu hqreg hureg hparent henabled := by
    rcases mem_append.mp hq with hq | hq
    · obtain ⟨-, u', hu', hid⟩ := h.parent hq hparent
      rcases mem_append.mp hu with hu | hu
      · exact h.enabled q hq u hu hqreg hureg hparent henabled
      · obtain rfl := mem_singleton.mp hu
        exact absurd hid (hfresh u' hu')
    · obtain rfl := mem_singleton.mp hq
      obtain ⟨v, hv, hparent', hvenabled, -⟩ := hregular hqreg
      rw [hparent'] at hparent
      have hid := Option.some.inj hparent
      rcases mem_append.mp hu with hu | hu
      · rw [← h.eq_of_id hv hu hid]
        exact hvenabled
      · obtain rfl := mem_singleton.mp hu
        exact absurd hid (hfresh v hv)

/-- The row keeps its place. -/
structure SamePlace (p q : Project) : Prop where
  id : q.id = p.id
  parentId : q.parentId = p.parentId
  isDomain : q.isDomain = p.isDomain
  domainId : q.domainId = p.domainId

theorem Reaches.map {g : Project → Project} (hg : ∀ p ∈ db, SamePlace p (g p)) (h : Reaches db p d n) :
    Reaches (db.map g) (g p) d n := by
  induction h with
  | domain hp hdomain =>
    have hplace := hg _ hp
    rw [← hplace.id]
    exact .domain (List.mem_map_of_mem hp) (hplace.isDomain.trans hdomain)
  | up hp hregular hq hparent _ ih =>
    refine .up (List.mem_map_of_mem hp) ((hg _ hp).isDomain.trans hregular) (List.mem_map_of_mem hq) ?_ ih
    rw [(hg _ hp).parentId, (hg _ hq).id]
    exact hparent

/-- **Rows that keep their place.** -/
theorem Inv.map (h : Inv depth db) {g : Project → Project} (hg : ∀ p ∈ db, SamePlace p (g p))
    (henabled : ∀ p ∈ db, ∀ q ∈ db, p.isDomain = false → q.isDomain = false → p.parentId = some q.id →
      (g p).enabled = true → (g q).enabled = true) : Inv depth (db.map g) where
  nodup := by
    have hids : (db.map g).map Project.id = db.map Project.id := by
      rw [List.map_map]
      exact map_congr_left fun p hp => (hg p hp).id
    rw [hids]
    exact h.nodup
  root q hq hdomain := by
    obtain ⟨p, hp, rfl⟩ := List.mem_map.mp hq
    have hplace := hg p hp
    rw [hplace.parentId, hplace.domainId]
    exact h.root p hp (hplace.isDomain ▸ hdomain)
  reaches q hq hregular := by
    obtain ⟨p, hp, rfl⟩ := List.mem_map.mp hq
    have hplace := hg p hp
    obtain ⟨d, n, hreaches, hle, hdomain⟩ := h.reaches p hp (hplace.isDomain ▸ hregular)
    exact ⟨d, n, hreaches.map hg, hle, hplace.domainId.trans hdomain⟩
  enabled q hq u hu hqreg hureg hparent hqenabled := by
    obtain ⟨p, hp, rfl⟩ := List.mem_map.mp hq
    obtain ⟨v, hv, rfl⟩ := List.mem_map.mp hu
    have hplace := hg p hp
    have hplace' := hg v hv
    rw [hplace.parentId, hplace'.id] at hparent
    exact henabled p hp v hv (hplace.isDomain ▸ hqreg) (hplace'.isDomain ▸ hureg) hparent hqenabled

theorem Reaches.remove {ids : List ℕ} (hclosed : ∀ p ∈ db, ∀ j ∈ ids, p.parentId = some j → p.id ∈ ids)
    (h : Reaches db p d n) (hp : p.id ∉ ids) : Reaches (deleteProjectsFromIds db ids) p d n := by
  have hmem : ∀ {p : Project}, p ∈ db → p.id ∉ ids → p ∈ deleteProjectsFromIds db ids := fun hin hout =>
    mem_filter.mpr ⟨hin, decide_eq_true hout⟩
  induction h with
  | domain hin hdomain => exact .domain (hmem hin hp) hdomain
  | up hin hregular hq hparent _ ih =>
    have hqout := fun hqin => hp (hclosed _ hin _ hqin hparent)
    exact .up (hmem hin hp) hregular (hmem hq hqout) hparent (ih hqout)

/-- **Rows removed with all below them.** -/
theorem Inv.remove (h : Inv depth db) {ids : List ℕ} (hclosed : ∀ p ∈ db, ∀ j ∈ ids, p.parentId = some j → p.id ∈ ids) :
    Inv depth (deleteProjectsFromIds db ids) := by
  have hmem : ∀ {p : Project}, p ∈ deleteProjectsFromIds db ids → p ∈ db ∧ p.id ∉ ids := fun hp =>
    ⟨(mem_filter.mp hp).1, of_decide_eq_true (mem_filter.mp hp).2⟩
  constructor
  · exact h.nodup.sublist (filter_sublist.map _)
  · exact fun p hp => h.root p (hmem hp).1
  · intro p hp hregular
    obtain ⟨hin, hout⟩ := hmem hp
    obtain ⟨d, n, hreaches, hrest⟩ := h.reaches p hin hregular
    exact ⟨d, n, hreaches.remove hclosed hout, hrest⟩
  · exact fun p hp q hq => h.enabled p (hmem hp).1 q (hmem hq).1

end Mitaka.Keystone.Resource
