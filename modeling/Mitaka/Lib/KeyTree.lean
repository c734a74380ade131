/-
  Subject: An index of nested dicts, one level for each of a list of attributes.

  An entry is put in along the path of its keys, and updates the value of the leaf. A
  search tries some keys at each level and goes back when a subtree has no answer.

  The subtree below a key is the tree of the entries with that key (`get_build`).
  From it: a search finds what one entry alone would answer (`search_build`), and the
  order of the entries does not matter (`build_same`).

  The leaf of a path can be removed, with the branches that are empty then. A tree without
  empty branches is what its leaves are (`same_iff`), so that it is enough to say what an
  operation does to them (`lookup_insert`, `remove_spec`).
-/
import Mitaka.Lib.Dict

namespace Mitaka

open List Option

variable {ι κ τ ε : Type}

/-- A dict for each level, and a value at the leaf that may be missing. -/
def KeyTree (κ τ : Type) : List ι → Type
  | [] => Option τ
  | _ :: levels => Dict κ (KeyTree κ τ levels)

namespace KeyTree

variable {level : ι} {levels : List ι}

def leaf (value : Option τ) : KeyTree κ τ ([] : List ι) := value

def value (t : KeyTree κ τ ([] : List ι)) : Option τ := t

def node (map : Dict κ (KeyTree κ τ levels)) : KeyTree κ τ (level :: levels) := map

def map (t : KeyTree κ τ (level :: levels)) : Dict κ (KeyTree κ τ levels) := t

@[simp] theorem map_node (d : Dict κ (KeyTree κ τ levels)) :
    (node d : KeyTree κ τ (level :: levels)).map = d := rfl

@[simp] theorem value_leaf (o : Option τ) : (leaf o : KeyTree κ τ ([] : List ι)).value = o := rfl

def empty : (levels : List ι) → KeyTree κ τ levels
  | [] => leaf none
  | _ :: _ => node []

/-- Whether anything is in the tree. -/
def truthy : (levels : List ι) → KeyTree κ τ levels → Bool
  | [], t => t.value.isSome
  | _ :: _, t => !t.map.isEmpty

section

variable [DecidableEq κ]

/-- The leaf on the path of the keys is updated. -/
def insert (key : ι → κ) (update : Option τ → τ) : (levels : List ι) → KeyTree κ τ levels → KeyTree κ τ levels
  | [], t => leaf (some (update t.value))
  | level :: levels, t =>
    node (t.map.set (key level) (insert key update levels ((t.map.get (key level)).getD (empty levels))))

/-- Some path of the keys to try ends at a leaf that is accepted. -/
def search (keys : ι → List κ) (accept : τ → Bool) : (levels : List ι) → KeyTree κ τ levels → Bool
  | [], t => t.value.any accept
  | level :: levels, t =>
    (keys level).any fun k =>
      match t.map.get k with
      | some subtree => truthy levels subtree && search keys accept levels subtree
      | none => false

/-- The same keys with the same values, in whatever order. -/
def Same : (levels : List ι) → KeyTree κ τ levels → KeyTree κ τ levels → Prop
  | [], t, u => t.value = u.value
  | _ :: levels, t, u => ∀ k, Option.Rel (Same levels) (t.map.get k) (u.map.get k)

variable (key : ε → ι → κ) (update : ε → Option τ → τ)

/-- The tree of a sequence of entries. -/
def build (levels : List ι) (entries : List ε) : KeyTree κ τ levels :=
  entries.foldl (fun t e => insert (key e) (update e) levels t) (empty levels)

theorem build_append (levels : List ι) (entries : List ε) (e : ε) :
    build key update levels (entries ++ [e]) =
      insert (key e) (update e) levels (build key update levels entries) := by
  rw [build, foldl_append]
  rfl

/-- **The subtree of a key is the tree of the entries with it.** -/
theorem get_build (level : ι) (levels : List ι) (entries : List ε) (k : κ) :
    (build key update (level :: levels) entries).map.get k =
      if entries.filter (fun e => key e level = k) = [] then none
      else some (build key update levels (entries.filter fun e => key e level = k)) := by
  induction entries using reverseRecOn generalizing k with
  | nil => rfl
  | append_singleton entries e ih =>
    rw [build_append, insert, map_node, Dict.get_set, filter_append]
    by_cases hk : key e level = k
    · subst hk
      have hsub : ((build key update (level :: levels) entries).map.get (key e level)).getD (empty levels) =
          build key update levels (entries.filter fun x => key x level = key e level) := by
        rw [ih]
        split
        case isTrue h =>
          rw [h]
          rfl
        case isFalse => rfl
      have hlast : [e].filter (fun x => key x level = key e level) = [e] := by simp
      rw [if_pos rfl, hsub, hlast, if_neg (by simp), build_append]
    · have hlast : [e].filter (fun x => key x level = k) = [] := by simp [hk]
      rw [if_neg hk, hlast, append_nil, ih]

variable {levels : List ι}

theorem truthy_build {entries : List ε} (h : entries ≠ []) :
    truthy levels (build key update levels entries) = true := by
  obtain ⟨entries, e, rfl⟩ := (eq_nil_or_concat entries).resolve_left h
  rw [concat_eq_append, build_append]
  cases levels with
  | nil => rfl
  | cons level levels =>
    have hget := get_build key update level levels (entries ++ [e]) (key e level)
    rw [if_neg (by simp), build_append] at hget
    rw [truthy, Bool.not_eq_true', isEmpty_eq_false_iff]
    intro hnil
    rw [hnil] at hget
    cases hget

/-- **A search finds what one entry alone answers**, where a leaf is accepted exactly
    when one of its entries is. -/
theorem search_build {keys : ι → List κ} {accept : τ → Bool} {acceptEntry : ε → Prop}
    (hleaf : ∀ entries : List ε, (build key update ([] : List ι) entries).value.any accept = true ↔
      ∃ e ∈ entries, acceptEntry e) (levels : List ι) (entries : List ε) :
    search keys accept levels (build key update levels entries) = true ↔
      ∃ e ∈ entries, acceptEntry e ∧ ∀ level ∈ levels, key e level ∈ keys level := by
  induction levels generalizing entries with
  | nil =>
    refine (hleaf entries).trans (exists_congr fun e => and_congr_right fun _ => ?_)
    exact ⟨fun h => ⟨h, fun _ h => nomatch h⟩, fun h => h.1⟩
  | cons level levels ih =>
    rw [search, List.any_eq_true]
    constructor
    · rintro ⟨k, hk, h⟩
      rw [get_build] at h
      split at h
      case h_1 subtree heq =>
        split at heq
        · cases heq
        · obtain rfl := Option.some.inj heq
          rw [Bool.and_eq_true, ih] at h
          obtain ⟨e, he, hacc, hkeys⟩ := h.2
          obtain ⟨he, hek⟩ := mem_filter.mp he
          refine ⟨e, he, hacc, fun l hl => ?_⟩
          rcases mem_cons.mp hl with rfl | hl
          · exact (of_decide_eq_true hek).symm ▸ hk
          · exact hkeys l hl
      case h_2 => cases h
    · rintro ⟨e, he, hacc, hkeys⟩
      have hmem : e ∈ entries.filter fun x => key x level = key e level :=
        mem_filter.mpr ⟨he, decide_eq_true rfl⟩
      refine ⟨key e level, hkeys level mem_cons_self, ?_⟩
      rw [get_build, if_neg (ne_nil_of_mem hmem)]
      dsimp only
      rw [Bool.and_eq_true, ih]
      exact ⟨truthy_build key update (ne_nil_of_mem hmem), e, hmem, hacc, fun l hl =>
        hkeys l (mem_cons_of_mem _ hl)⟩

/-- **The order of the entries does not matter**, where it does not matter at a leaf. -/
theorem build_same (hcomm : ∀ (e f : ε) (o : Option τ), update f (some (update e o)) = update e (some (update f o)))
    (levels : List ι) {entries entries' : List ε} (h : entries.Perm entries') :
    Same levels (build key update levels entries) (build key update levels entries') := by
  induction levels generalizing entries entries' with
  | nil =>
    refine congrArg value (h.foldl_eq' (fun e _ f _ t => ?_) _)
    exact congrArg (fun o => leaf (some o)) (hcomm e f t.value)
  | cons level levels ih =>
    intro k
    have hfilter := h.filter fun e => key e level = k
    rw [get_build, get_build]
    by_cases hnil : entries.filter (fun e => key e level = k) = []
    · rw [hnil] at hfilter
      rw [if_pos hnil, if_pos hfilter.nil_eq.symm]
      exact Option.Rel.none
    · have hnil' : entries'.filter (fun e => key e level = k) ≠ [] := fun h => by
        rw [h] at hfilter
        exact hnil hfilter.eq_nil
      rw [if_neg hnil, if_neg hnil']
      exact Option.Rel.some (ih hfilter)

/-! ### Leaves -/

/-- The value at the leaf of a path of keys. -/
def lookup : (levels : List ι) → KeyTree κ τ levels → List κ → Option τ
  | [], t, [] => t.value
  | _ :: levels, t, k :: path => (t.map.get k).bind fun subtree => lookup levels subtree path
  | _, _, _ => none

/-- No branch is empty. -/
def Pruned : (levels : List ι) → KeyTree κ τ levels → Prop
  | [], _ => True
  | _ :: levels, t => ∀ k subtree, t.map.get k = some subtree → truthy levels subtree = true ∧ Pruned levels subtree

/-- The leaf of the path of the keys is removed if its value is to be dropped, and then the branches that are empty.
    A leaf that has no value is an error. -/
def remove (key : ι → κ) (drop : τ → Bool) : (levels : List ι) → KeyTree κ τ levels → Option (KeyTree κ τ levels)
  | [], t => t.value.map fun v => leaf (if drop v then none else some v)
  | level :: levels, t =>
    match t.map.get (key level) with
    | none => some t
    | some subtree =>
      (remove key drop levels subtree).map fun child =>
        if truthy levels child then node (t.map.set (key level) child) else node (t.map.erase (key level))

@[simp] theorem lookup_node_cons (d : Dict κ (KeyTree κ τ levels)) (k : κ) (path : List κ) :
    lookup (level :: levels) (node d) (k :: path) = (d.get k).bind fun subtree => lookup levels subtree path := rfl

theorem lookup_cons (t : KeyTree κ τ (level :: levels)) (k : κ) (path : List κ) :
    lookup (level :: levels) t (k :: path) = (t.map.get k).bind fun subtree => lookup levels subtree path := rfl

theorem lookup_cons_nil (t : KeyTree κ τ (level :: levels)) : lookup (level :: levels) t [] = none := rfl

theorem lookup_nil_cons (t : KeyTree κ τ ([] : List ι)) (k : κ) (path : List κ) : lookup [] t (k :: path) = none := rfl

theorem lookup_empty (levels : List ι) (path : List κ) : lookup levels (empty levels : KeyTree κ τ levels) path = none := by
  cases levels <;> cases path <;> rfl

theorem pruned_empty (levels : List ι) : Pruned levels (empty levels : KeyTree κ τ levels) := by
  cases levels with
  | nil => trivial
  | cons level levels => exact nofun

theorem truthy_node_set (d : Dict κ (KeyTree κ τ levels)) (k : κ) (t : KeyTree κ τ levels) :
    truthy (level :: levels) (node (d.set k t)) = true := by
  rw [truthy, map_node]
  cases d with
  | nil => rfl
  | cons e d =>
    rw [Dict.set]
    split <;> rfl

variable {t : KeyTree κ τ levels}

/-- What is in a tree without empty branches is at one of its leaves. -/
theorem exists_lookup (h : Pruned levels t) (ht : truthy levels t = true) :
    ∃ path v, lookup levels t path = some v := by
  induction levels with
  | nil =>
    obtain ⟨v, hv⟩ := isSome_iff_exists.mp ht
    exact ⟨[], v, hv⟩
  | cons level levels ih =>
    rw [truthy, Bool.not_eq_true', isEmpty_eq_false_iff_exists_mem] at ht
    obtain ⟨e, he⟩ := ht
    obtain ⟨subtree, hget⟩ := isSome_iff_exists.mp (Dict.mem_keys_iff.mp (List.mem_map_of_mem he))
    obtain ⟨htruthy, hpruned⟩ := h _ _ hget
    obtain ⟨path, v, hv⟩ := ih hpruned htruthy
    exact ⟨e.1 :: path, v, by rw [lookup_cons, hget, bind_some, hv]⟩

/-- **A tree without empty branches is what its leaves are.** -/
theorem same_iff {t u : KeyTree κ τ levels} (ht : Pruned levels t) (hu : Pruned levels u) :
    Same levels t u ↔ ∀ path, lookup levels t path = lookup levels u path := by
  induction levels with
  | nil =>
    refine ⟨fun h path => ?_, fun h => h []⟩
    cases path with
    | nil => exact h
    | cons => rfl
  | cons level levels ih =>
    constructor
    · intro h path
      cases path with
      | nil => rfl
      | cons k path =>
        rw [lookup_cons, lookup_cons]
        have hk := h k
        cases ht' : t.map.get k with
        | none =>
          rw [ht'] at hk
          cases hu' : u.map.get k with
          | none => rfl
          | some b =>
            rw [hu'] at hk
            cases hk
        | some a =>
          rw [ht'] at hk
          cases hu' : u.map.get k with
          | none =>
            rw [hu'] at hk
            cases hk
          | some b =>
            rw [hu'] at hk
            cases hk with
            | some hab => exact (ih (ht k a ht').2 (hu k b hu').2).mp hab path
    · intro h k
      -- a branch of one tree has a leaf, which the other tree has too
      have hnone : ∀ {t u : KeyTree κ τ (level :: levels)} {a : KeyTree κ τ levels}, Pruned (level :: levels) t →
          (∀ path, lookup (level :: levels) t path = lookup (level :: levels) u path) →
          t.map.get k = some a → u.map.get k ≠ none := fun ht h ha hb => by
        obtain ⟨htruthy, hpruned⟩ := ht _ _ ha
        obtain ⟨path, v, hv⟩ := exists_lookup hpruned htruthy
        have hpath := h (k :: path)
        rw [lookup_cons, lookup_cons, ha, hb, bind_some, bind_none, hv] at hpath
        cases hpath
      cases ht' : t.map.get k with
      | none =>
        cases hu' : u.map.get k with
        | none => exact Option.Rel.none
        | some b => exact absurd ht' (hnone hu (fun path => (h path).symm) hu')
      | some a =>
        cases hu' : u.map.get k with
        | none => exact absurd hu' (hnone ht h ht')
        | some b =>
          refine Option.Rel.some ((ih (ht k a ht').2 (hu k b hu').2).mpr fun path => ?_)
          have hpath := h (k :: path)
          rw [lookup_cons, lookup_cons, ht', hu'] at hpath
          exact hpath

/-- **Looking up after an entry has been put in.** -/
theorem lookup_insert (key : ι → κ) (update : Option τ → τ) (levels : List ι) (t : KeyTree κ τ levels) (path : List κ) :
    lookup levels (insert key update levels t) path =
      if path = levels.map key then some (update (lookup levels t path)) else lookup levels t path := by
  induction levels generalizing path with
  | nil =>
    cases path with
    | nil => rfl
    | cons k path => rw [map_nil, if_neg (cons_ne_nil _ _), lookup_nil_cons, lookup_nil_cons]
  | cons level levels ih =>
    cases path with
    | nil => rw [map_cons, if_neg (cons_ne_nil _ _).symm, lookup_cons_nil, lookup_cons_nil]
    | cons k path =>
      rw [insert, lookup_node_cons, Dict.get_set, lookup_cons, map_cons]
      by_cases hk : key level = k
      · subst hk
        have hsub : lookup levels ((t.map.get (key level)).getD (empty levels)) path =
            (t.map.get (key level)).bind fun subtree => lookup levels subtree path := by
          cases t.map.get (key level) with
          | none => exact lookup_empty levels path
          | some subtree => rfl
        rw [if_pos rfl, bind_some, ih, hsub]
        exact if_congr (by rw [List.cons.injEq, eq_self_iff_true, true_and]) rfl rfl
      · rw [if_neg hk, if_neg fun h => hk (List.cons.inj h).1.symm]

theorem truthy_insert (key : ι → κ) (update : Option τ → τ) (levels : List ι) (t : KeyTree κ τ levels) :
    truthy levels (insert key update levels t) = true := by
  cases levels with
  | nil => rfl
  | cons level levels => exact truthy_node_set _ _ _

theorem pruned_insert (key : ι → κ) (update : Option τ → τ)
    (h : Pruned levels t) : Pruned levels (insert key update levels t) := by
  induction levels with
  | nil => trivial
  | cons level levels ih =>
    intro k subtree hget
    rw [insert, map_node, Dict.get_set] at hget
    split_ifs at hget with hk
    · obtain rfl := Option.some.inj hget
      refine ⟨truthy_insert _ _ _ _, ih ?_⟩
      cases hold : t.map.get (key level) with
      | none => exact pruned_empty levels
      | some old => exact (h _ _ hold).2
    · exact h _ _ hget

theorem pruned_build (key : ε → ι → κ) (update : ε → Option τ → τ) (levels : List ι) (entries : List ε) :
    Pruned levels (build key update levels entries) := by
  induction entries using reverseRecOn with
  | nil => exact pruned_empty levels
  | append_singleton entries e ih =>
    rw [build_append]
    exact pruned_insert _ _ ih

/-- The leaf of a path is that of the entries with the path. -/
theorem lookup_build (key : ε → ι → κ) (update : ε → Option τ → τ) (levels : List ι) (entries : List ε) (path : List κ) :
    lookup levels (build key update levels entries) path =
      (build key update ([] : List ι) (entries.filter fun e => path = levels.map (key e))).value := by
  induction entries using reverseRecOn with
  | nil => exact lookup_empty levels path
  | append_singleton entries e ih =>
    rw [build_append, lookup_insert, ih, filter_append]
    by_cases hpath : path = levels.map (key e)
    · have hlast : [e].filter (fun e => path = levels.map (key e)) = [e] := by simp [hpath]
      rw [if_pos hpath, hlast, build_append]
      rfl
    · have hlast : [e].filter (fun e => path = levels.map (key e)) = [] := by simp [hpath]
      rw [if_neg hpath, hlast, append_nil]

/-- **The removal of a leaf**, which leaves the other leaves and no empty branch. -/
theorem remove_spec (key : ι → κ) (drop : τ → Bool) {v : τ}
    (h : Pruned levels t) (hv : lookup levels t (levels.map key) = some v) :
    ∃ t', remove key drop levels t = some t' ∧ Pruned levels t' ∧
      ∀ path, lookup levels t' path =
        if path = levels.map key ∧ drop v = true then none else lookup levels t path := by
  induction levels with
  | nil =>
    have hv : t.value = some v := hv
    refine ⟨leaf (if drop v then none else some v), by rw [remove, hv]; rfl, trivial, fun path => ?_⟩
    cases path with
    | nil =>
      show (if drop v then none else some v) = _
      cases hd : drop v with
      | false =>
        rw [if_neg Bool.false_ne_true, if_neg fun h => Bool.false_ne_true h.2]
        exact hv.symm
      | true => rw [if_pos rfl, if_pos ⟨rfl, rfl⟩]
    | cons k path => rw [lookup_nil_cons, lookup_nil_cons, ite_self]
  | cons level levels ih =>
    rw [map_cons, lookup_cons, bind_eq_some_iff] at hv
    obtain ⟨subtree, hsub, hv⟩ := hv
    obtain ⟨child, hrun, hpruned, hchild⟩ := ih (h _ _ hsub).2 hv
    have hrest : ∀ k path, key level ≠ k →
        ((k :: path = (level :: levels).map key ∧ drop v = true) ↔ False) := fun k path hk => by
      rw [map_cons, List.cons.injEq]
      exact iff_of_false (fun hp => hk hp.1.1.symm) id
    have hhere : ∀ path, ((key level :: path = (level :: levels).map key ∧ drop v = true) ↔
        (path = levels.map key ∧ drop v = true)) := fun path => by
      rw [map_cons, List.cons.injEq, eq_self_iff_true, true_and]
    by_cases htruthy : truthy levels child = true
    · refine ⟨node (t.map.set (key level) child), ?_, fun k u hget => ?_, fun path => ?_⟩
      · rw [remove, hsub]
        dsimp only
        rw [hrun, map_some, if_pos htruthy]
      · rw [map_node, Dict.get_set] at hget
        split_ifs at hget with hk
        · exact Option.some.inj hget ▸ ⟨htruthy, hpruned⟩
        · exact h _ _ hget
      · cases path with
        | nil => rw [lookup_cons_nil, lookup_cons_nil, ite_self]
        | cons k path =>
          rw [lookup_node_cons, Dict.get_set, lookup_cons]
          by_cases hk : key level = k
          · subst hk
            rw [if_pos rfl, bind_some, hchild, hsub, bind_some]
            exact if_congr (hhere path).symm rfl rfl
          · rw [if_neg hk, if_neg (hrest k path hk).mp]
    · -- nothing is left below the key
      have hempty : ∀ path, lookup levels child path = none := fun path => by
        cases levels with
        | nil =>
          cases path with
          | nil => exact not_isSome_iff_eq_none.mp htruthy
          | cons => rfl
        | cons level' levels =>
          cases path with
          | nil => rfl
          | cons k path =>
            have hnil : child.map = [] := by
              rw [truthy, Bool.not_eq_true', Bool.not_eq_false, List.isEmpty_iff] at htruthy
              exact htruthy
            rw [lookup_cons, hnil]
            rfl
      refine ⟨node (t.map.erase (key level)), ?_, fun k u hget => ?_, fun path => ?_⟩
      · rw [remove, hsub]
        dsimp only
        rw [hrun, map_some, if_neg htruthy]
      · rw [map_node, Dict.get_erase] at hget
        split_ifs at hget with hk
        exact h _ _ hget
      · cases path with
        | nil => rw [lookup_cons_nil, lookup_cons_nil, ite_self]
        | cons k path =>
          rw [lookup_node_cons, Dict.get_erase, lookup_cons]
          by_cases hk : key level = k
          · subst hk
            have hpath := hchild path
            rw [hempty] at hpath
            rw [if_pos rfl, bind_none, hsub, bind_some]
            exact hpath.trans (if_congr (hhere path).symm rfl rfl)
          · rw [if_neg hk, if_neg (hrest k path hk).mp]

end

end KeyTree

end Mitaka
