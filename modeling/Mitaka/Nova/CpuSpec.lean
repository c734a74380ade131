/-
  Subject: nova/virt/hardware.py, `parse_cpu_spec` and `format_cpu_spec`.

  A specification of CPUs is a list of rules between commas: a number, a range, or either
  behind a caret, which takes CPUs out. The parser collects both kinds in two sets
  (`CpuSets`), so the order of the rules does not matter (`parseRule_comm`). The printer
  cuts the ascending ids into runs (`Grouped`); a run that is printed adds exactly its ids
  (`parseRule_entryStr`).
-/
import Mitaka.Swift.Range

namespace Mitaka.Nova

open List

open Swift (Str strip splitFirst pyInt intStr)

/-! ## 1. The parser -/

/-- The `exception.Invalid`s of the parser; each names the rule. -/
inductive InvalidSpec
  | range (rule : Str)
  | exclusion (rule : Str)
  | inclusion (rule : Str)
deriving DecidableEq

/-- The two sets of the loop. -/
structure CpuSets where
  cpusetIds : Finset ℤ
  cpusetRejectIds : Finset ℤ

namespace CpuSets

/-- `cpuset_ids |= ids`, or `cpuset_reject_ids |= ids`. -/
def add (s : CpuSets) (reject : Bool) (ids : Finset ℤ) : CpuSets :=
  if reject then { s with cpusetRejectIds := s.cpusetRejectIds ∪ ids } else { s with cpusetIds := s.cpusetIds ∪ ids }

theorem add_comm (s : CpuSets) (r r' : Bool) (ids ids' : Finset ℤ) :
    (s.add r ids).add r' ids' = (s.add r' ids').add r ids := by
  cases r <;> cases r' <;> simp [add, Finset.union_comm ids]

end CpuSets

/-- `range(start, stop)`. -/
def pyRange (start stop : ℤ) : List ℤ := (List.range (stop - start).toNat).map fun n : ℕ => start + (n : ℤ)

theorem mem_pyRange {start stop x : ℤ} : x ∈ pyRange start stop ↔ start ≤ x ∧ x < stop := by
  simp only [pyRange, List.mem_map, mem_range]
  constructor
  · rintro ⟨n, hn, rfl⟩
    omega
  · rintro ⟨hle, hlt⟩
    exact ⟨(x - start).toNat, by omega, by omega⟩

/-- One turn of the loop of `parse_cpu_spec`. -/
def parseRule (s : CpuSets) (rule : Str) : Except InvalidSpec CpuSets :=
  let rule := strip rule
  if rule = [] then .ok s
  else
    match splitFirst '-' rule with
    | (first, some last) =>
      let reject := first.head? = some '^'
      let first := if reject then first.tail else first
      match pyInt (strip first), pyInt (strip last) with
      | some start, some stop =>
        if start > stop then .error (.range rule) else .ok (s.add reject (pyRange start (stop + 1)).toFinset)
      | _, _ => .error (.range rule)
    | (_, none) =>
      if rule.head? = some '^' then
        match pyInt (strip rule.tail) with
        | some id => .ok (s.add true {id})
        | none => .error (.exclusion rule)
      else
        match pyInt rule with
        | some id => .ok (s.add false {id})
        | none => .error (.inclusion rule)

/-- `parse_cpu_spec`. -/
def parseCpuSpec (spec : Str) : Except InvalidSpec (Finset ℤ) := do
  let s ← (spec.splitOn ',').foldlM parseRule ⟨∅, ∅⟩
  return s.cpusetIds \ s.cpusetRejectIds

/-! ## 2. The printer -/

/-- One turn of the loop of `format_cpu_spec`: a run is begun, or the last one goes on. -/
def addIndex (state : List (List ℤ) × Option ℤ) (cpuindex : ℤ) : List (List ℤ) × Option ℤ :=
  let (ranges, previndex) := state
  let ranges := if previndex = none ∨ previndex ≠ some (cpuindex - 1) then ranges ++ [[]] else ranges
  (ranges.modifyLast (· ++ [cpuindex]), some cpuindex)

/-- One run: its only id, or its ends. No run is empty. -/
def entryStr : List ℤ → Str
  | [id] => intStr id
  | entry => intStr (entry.headD 0) ++ '-' :: intStr (entry.getLastD 0)

/-- `format_cpu_spec`. -/
def formatCpuSpec (cpuset : Finset ℤ) (allowRanges : Bool) : Str :=
  if allowRanges then [','].intercalate (((cpuset.sort (· ≤ ·)).foldl addIndex ([], none)).1.map entryStr)
  else [','].intercalate ((cpuset.sort (· ≤ ·)).map intStr)

/-! ## 3. The order of the rules -/

/-- **A rule that is accepted** adds its ids to one of the sets, whatever was there before. -/
theorem parseRule_adds {s s' : CpuSets} {rule : Str} (h : parseRule s rule = .ok s') :
    ∃ reject ids, s' = s.add reject ids ∧ ∀ t, parseRule t rule = .ok (t.add reject ids) := by
  unfold parseRule at h ⊢
  dsimp only at h ⊢
  split at h
  case isTrue hempty =>
    cases h
    exact ⟨false, ∅, by simp [CpuSets.add], fun t => by simp [CpuSets.add, hempty]⟩
  case isFalse hrule =>
    simp only [if_neg hrule]
    split at h
    case h_1 first last hsplit =>
      split at h
      case h_1 start stop hstart hstop =>
        split at h
        case isTrue => cases h
        case isFalse hle =>
          cases h
          exact ⟨_, _, rfl, fun t => if_neg hle⟩
      case h_2 => cases h
    case h_2 first hsplit =>
      split at h
      case isTrue hcaret =>
        simp only [if_pos hcaret]
        split at h
        case h_1 id hid =>
          cases h
          exact ⟨_, _, rfl, fun t => rfl⟩
        case h_2 => cases h
      case isFalse hcaret =>
        simp only [if_neg hcaret]
        split at h
        case h_1 id hid =>
          cases h
          exact ⟨_, _, rfl, fun t => rfl⟩
        case h_2 => cases h

theorem notMem_of_mem_splitOn {c : Char} {s part : Str} (h : part ∈ s.splitOn c) : c ∉ part := by
  induction s generalizing part with
  | nil =>
    rw [splitOn_nil, mem_singleton] at h
    exact h ▸ not_mem_nil
  | cons d s ih =>
    rw [splitOn_cons_eq_if_modifyHead] at h
    split at h
    case isTrue hd =>
      rcases mem_cons.mp h with rfl | h
      · exact not_mem_nil
      · exact ih h
    case isFalse hd =>
      cases hs : s.splitOn c with
      | nil => exact absurd hs (splitOn_ne_nil _ _)
      | cons q qs =>
        rw [hs, modifyHead_cons] at h
        rcases mem_cons.mp h with rfl | h
        · have hne : c ≠ d := fun e => hd (beq_iff_eq.mpr e.symm)
          exact fun hm => (mem_cons.mp hm).elim hne (ih (hs ▸ mem_cons_self))
        · exact ih (hs ▸ mem_cons_of_mem _ h)

/-- **Two rules** do the same in either order. -/
theorem parseRule_comm (s : CpuSets) (a b : Str) (s₁ s₂ : CpuSets) (ha : parseRule s a = .ok s₁) (hb : parseRule s₁ b = .ok s₂) :
    ∃ s₁', parseRule s b = .ok s₁' ∧ parseRule s₁' a = .ok s₂ := by
  obtain ⟨r, ids, rfl, hall⟩ := parseRule_adds ha
  obtain ⟨r', ids', rfl, hall'⟩ := parseRule_adds hb
  exact ⟨s.add r' ids', hall' s, by rw [hall, CpuSets.add_comm]⟩

/-- **The order of the rules** does not matter, also not for their being accepted. -/
theorem parseCpuSpec_perm {spec : Str} {cpuset : Finset ℤ} (h : parseCpuSpec spec = .ok cpuset) {rules : List Str}
    (hrules : rules.Perm (spec.splitOn ',')) : parseCpuSpec ([','].intercalate rules) = .ok cpuset := by
  have hcomma : ∀ rule ∈ rules, ',' ∉ rule := fun rule hrule => notMem_of_mem_splitOn (hrules.mem_iff.mp hrule)
  have hne : rules ≠ [] := fun e => splitOn_ne_nil ',' spec (perm_nil.mp (e ▸ hrules.symm))
  obtain ⟨s, hs, h⟩ := Fallible.bind_eq_ok.mp h
  refine Fallible.bind_eq_ok.mpr ⟨s, ?_, h⟩
  rw [splitOn_intercalate _ hcomma hne]
  exact Fallible.foldlM_perm parseRule_comm hrules.symm hs

/-! ## 4. The runs of the printer -/

/-- Each id of a run is the one behind the id before it. -/
abbrev IsRun (entry : List ℤ) : Prop := entry.IsChain fun a b => b = a + 1

variable {entry : List ℤ}

/-- The ids of a run are the numbers between its ends. -/
theorem mem_of_isRun {a : ℤ} (h : IsRun (a :: entry)) {x : ℤ} :
    x ∈ a :: entry ↔ a ≤ x ∧ x ≤ (a :: entry).getLastD 0 := by
  induction entry generalizing a x with
  | nil =>
    rw [mem_singleton, getLastD_cons, getLastD_nil]
    omega
  | cons b entry ih =>
    rw [IsRun, isChain_cons_cons] at h
    obtain ⟨rfl, h⟩ := h
    have hmem : a + 1 ≤ ((a + 1) :: entry).getLastD 0 := ((ih h).mp mem_cons_self).2
    rw [mem_cons, ih h]
    simp only [getLastD_cons] at hmem ⊢
    omega

/-- The state of the printer's loop behind the ids `l`. -/
structure Grouped (l : List ℤ) (state : List (List ℤ) × Option ℤ) : Prop where
  flatten : state.1.flatten = l
  previndex : l.getLast? = state.2
  runs : ∀ entry ∈ state.1, entry ≠ [] ∧ IsRun entry

theorem Grouped.addIndex {l : List ℤ} {state : List (List ℤ) × Option ℤ} (h : Grouped l state) (cpuindex : ℤ) :
    Grouped (l ++ [cpuindex]) (addIndex state cpuindex) := by
  obtain ⟨ranges, previndex⟩ := state
  obtain ⟨rfl, hprev, hruns⟩ := h
  dsimp only at hprev hruns
  unfold Nova.addIndex
  dsimp only
  by_cases hnew : previndex = none ∨ previndex ≠ some (cpuindex - 1)
  · rw [if_pos hnew, modifyLast_concat]
    refine ⟨by simp, by simp, fun entry hentry => ?_⟩
    rcases mem_append.mp hentry with hentry | hentry
    · exact hruns entry hentry
    · obtain rfl := mem_singleton.mp hentry
      exact ⟨cons_ne_nil _ _, isChain_singleton _⟩
  · rw [if_neg hnew]
    rw [not_or, not_not] at hnew
    obtain ⟨-, rfl⟩ := hnew
    cases ranges using reverseRecOn with
    | nil => cases hprev
    | append_singleton ranges entry _ =>
      obtain ⟨hne, hrun⟩ := hruns entry (mem_append_right _ mem_cons_self)
      -- the last run is not empty, so its last id is the previous one
      have hlast : entry.getLast? = some (cpuindex - 1) := by
        rw [flatten_append, getLast?_append, flatten_singleton] at hprev
        rw [← hprev, getLast?_eq_some_getLast hne, Option.some_or]
      rw [modifyLast_concat]
      refine ⟨by simp, by simp, fun e he => ?_⟩
      rcases mem_append.mp he with he | he
      · exact hruns e (mem_append_left _ he)
      · obtain rfl := mem_singleton.mp he
        refine ⟨append_ne_nil_of_left_ne_nil hne _, List.IsChain.append hrun (isChain_singleton _) ?_⟩
        intro x hx y hy
        cases hlast.symm.trans hx
        cases hy
        ring

theorem grouped (l : List ℤ) : Grouped l (l.foldl addIndex ([], none)) := by
  induction l using reverseRecOn with
  | nil => exact ⟨rfl, rfl, nofun⟩
  | append_singleton l cpuindex ih =>
    rw [foldl_append]
    exact ih.addIndex cpuindex

/-! ## 5. The round trip -/

variable {n : ℤ}

/-- The characters of a run that is printed. -/
theorem code_of_mem_intStr (hn : 0 ≤ n) {c : Char} (hc : c ∈ intStr n) : 48 ≤ c.toNat ∧ c.toNat ≤ 57 := by
  rw [Swift.intStr_of_nonneg hn] at hc
  exact Numeral.toNat_of_mem_toDigits hc

theorem strip_intStr (hn : 0 ≤ n) : strip (intStr n) = intStr n := by
  rw [Swift.intStr_of_nonneg hn, Swift.strip_toDigits]

theorem head_intStr (hn : 0 ≤ n) : (intStr n).head? ≠ some '^' := fun h =>
  absurd (code_of_mem_intStr hn (mem_of_mem_head? h)) (by decide)

theorem dash_notMem_intStr (hn : 0 ≤ n) : '-' ∉ intStr n := fun h =>
  absurd (code_of_mem_intStr hn h) (by decide)

/-- **A number that is printed** adds itself. -/
theorem parseRule_intStr (s : CpuSets) (hn : 0 ≤ n) : parseRule s (intStr n) = .ok (s.add false {n}) := by
  unfold parseRule
  dsimp only
  rw [strip_intStr hn, if_neg (Swift.intStr_ne_nil n), Swift.splitFirst_of_notMem (dash_notMem_intStr hn)]
  dsimp only
  rw [if_neg (head_intStr hn), Swift.pyInt_intStr]

/-- **A range that is printed** adds the numbers between its ends. -/
theorem parseRule_range (s : CpuSets) {start stop : ℤ} (hstart : 0 ≤ start) (hle : start ≤ stop) :
    parseRule s (intStr start ++ '-' :: intStr stop) = .ok (s.add false (pyRange start (stop + 1)).toFinset) := by
  have hstop : 0 ≤ stop := hstart.trans hle
  have hstrip : strip (intStr start ++ '-' :: intStr stop) = intStr start ++ '-' :: intStr stop := by
    refine Swift.strip_eq_self (fun c hc => ?_) fun c hc => ?_
    · rw [head?_append_of_ne_nil _ (Swift.intStr_ne_nil start)] at hc
      exact Swift.not_isSpace_of_code (code_of_mem_intStr hstart (mem_of_mem_head? hc))
    · rw [getLast?_append_of_ne_nil _ (cons_ne_nil _ _), getLast?_cons_of_ne_nil (Swift.intStr_ne_nil stop)] at hc
      exact Swift.not_isSpace_of_code (code_of_mem_intStr hstop (mem_of_getLast? hc))
  unfold parseRule
  dsimp only
  rw [hstrip, if_neg (append_ne_nil_of_left_ne_nil (Swift.intStr_ne_nil start) _),
    Swift.splitFirst_append (dash_notMem_intStr hstart)]
  dsimp only
  rw [if_neg (head_intStr hstart), strip_intStr hstart, strip_intStr hstop, Swift.pyInt_intStr, Swift.pyInt_intStr]
  dsimp only
  rw [if_neg (not_lt.mpr hle), decide_eq_false (head_intStr hstart)]

/-- **A run that is printed** adds its ids. -/
theorem parseRule_entryStr (s : CpuSets) (hne : entry ≠ []) (hrun : IsRun entry) (hnonneg : ∀ n ∈ entry, 0 ≤ n) :
    parseRule s (entryStr entry) = .ok (s.add false entry.toFinset) := by
  match entry, hne with
  | [n], _ => exact parseRule_intStr s (hnonneg n mem_cons_self)
  | a :: b :: rest, _ =>
    have hle : a ≤ (a :: b :: rest).getLastD 0 := ((mem_of_isRun hrun).mp mem_cons_self).2
    have hids : (pyRange a ((a :: b :: rest).getLastD 0 + 1)).toFinset = (a :: b :: rest).toFinset := by
      ext x
      rw [List.mem_toFinset, mem_pyRange, List.mem_toFinset, mem_of_isRun hrun, Int.lt_add_one_iff]
    rw [← hids]
    exact parseRule_range s (hnonneg a mem_cons_self) hle

/-- The runs of a specification, one after another. -/
theorem foldlM_entryStr (s : CpuSets) {entries : List (List ℤ)} (hruns : ∀ entry ∈ entries, entry ≠ [] ∧ IsRun entry)
    (hnonneg : ∀ n ∈ entries.flatten, 0 ≤ n) :
    (entries.map entryStr).foldlM parseRule s = .ok (s.add false entries.flatten.toFinset) := by
  induction entries generalizing s with
  | nil =>
    simp [CpuSets.add]
    rfl
  | cons entry entries ih =>
    obtain ⟨hne, hrun⟩ := hruns entry mem_cons_self
    rw [flatten_cons] at hnonneg ⊢
    rw [map_cons, foldlM_cons, parseRule_entryStr s hne hrun fun n hn => hnonneg n (mem_append_left _ hn)]
    refine (ih _ (fun e he => hruns e (mem_cons_of_mem _ he)) fun n hn => hnonneg n (mem_append_right _ hn)).trans ?_
    simp [CpuSets.add, toFinset_append]

theorem comma_notMem_entryStr (hne : entry ≠ []) (hnonneg : ∀ n ∈ entry, 0 ≤ n) : ',' ∉ entryStr entry := by
  have hcode : ∀ n ∈ entry, ',' ∉ intStr n := fun n hn h => absurd (code_of_mem_intStr (hnonneg n hn) h) (by decide)
  match entry, hne with
  | [n], _ => exact hcode n mem_cons_self
  | a :: b :: rest, _ =>
    have hlast : (a :: b :: rest).getLastD 0 ∈ a :: b :: rest := by
      rw [getLastD_eq_getLast?, getLast?_eq_some_getLast (cons_ne_nil a (b :: rest))]
      exact getLast_mem (cons_ne_nil a (b :: rest))
    intro h
    rcases mem_append.mp h with h | h
    · exact hcode a mem_cons_self h
    · rcases mem_cons.mp h with h | h
      · exact absurd h (by decide)
      · exact hcode _ hlast h

/-- **Runs that are printed** are read back as the set of their ids. -/
theorem parseCpuSpec_entries {entries : List (List ℤ)} (hruns : ∀ entry ∈ entries, entry ≠ [] ∧ IsRun entry)
    (hnonneg : ∀ n ∈ entries.flatten, 0 ≤ n) :
    parseCpuSpec ([','].intercalate (entries.map entryStr)) = .ok entries.flatten.toFinset := by
  have hfold : (([','].intercalate (entries.map entryStr)).splitOn ',').foldlM parseRule ⟨∅, ∅⟩ =
      .ok (CpuSets.add ⟨∅, ∅⟩ false entries.flatten.toFinset) := by
    by_cases hentries : entries = []
    · subst hentries
      rfl
    · rw [splitOn_intercalate _ _ (mt map_eq_nil_iff.mp hentries)]
      · exact foldlM_entryStr _ hruns hnonneg
      · intro part hpart
        obtain ⟨entry, hentry, rfl⟩ := List.mem_map.mp hpart
        exact comma_notMem_entryStr (hruns entry hentry).1 fun n hn => hnonneg n (mem_flatten.mpr ⟨entry, hentry, hn⟩)
  refine Fallible.bind_eq_ok.mpr ⟨_, hfold, ?_⟩
  simp [CpuSets.add, pure, Except.pure]

/-- **What is printed is read back**, with ranges and without. -/
theorem parseCpuSpec_formatCpuSpec {cpuset : Finset ℤ} (h : ∀ id ∈ cpuset, 0 ≤ id) (allowRanges : Bool) :
    parseCpuSpec (formatCpuSpec cpuset allowRanges) = .ok cpuset := by
  have hnonneg : ∀ id ∈ cpuset.sort (· ≤ ·), 0 ≤ id := fun id hid => h id ((Finset.mem_sort _).mp hid)
  cases allowRanges with
  | true =>
    have hgroups := grouped (cpuset.sort (· ≤ ·))
    refine (parseCpuSpec_entries hgroups.runs (by rwa [hgroups.flatten])).trans ?_
    rw [hgroups.flatten, Finset.sort_toFinset]
  | false =>
    -- each id is a run of its own
    have hsingle : ((cpuset.sort (· ≤ ·)).map fun id => [id]).flatten = cpuset.sort (· ≤ ·) := by
      rw [← flatMap_def, flatMap_singleton']
    have hstr : (cpuset.sort (· ≤ ·)).map intStr = ((cpuset.sort (· ≤ ·)).map fun id => [id]).map entryStr := by
      rw [List.map_map]
      rfl
    refine (congrArg (fun parts => parseCpuSpec ([','].intercalate parts)) hstr).trans ?_
    rw [parseCpuSpec_entries _ (by rwa [hsingle]), hsingle, Finset.sort_toFinset]
    intro entry hentry
    obtain ⟨id, -, rfl⟩ := List.mem_map.mp hentry
    exact ⟨cons_ne_nil _ _, isChain_singleton _⟩

/-- **Specifications of CPUs.** A set of ids that is printed is read back, and a specification that
    is accepted means the same with its rules in any order. -/
theorem cpuSpec_sound (cpuset : Finset ℤ) (hcpuset : ∀ id ∈ cpuset, 0 ≤ id) (allowRanges : Bool) (spec : Str) (ids : Finset ℤ)
    (hspec : parseCpuSpec spec = .ok ids) (rules : List Str) (hrules : rules.Perm (spec.splitOn ',')) :
    parseCpuSpec (formatCpuSpec cpuset allowRanges) = .ok cpuset ∧ parseCpuSpec ([','].intercalate rules) = .ok ids :=
  ⟨parseCpuSpec_formatCpuSpec hcpuset allowRanges, parseCpuSpec_perm hspec hrules⟩

theorem cpuSpec_sound_docstring :
    parseCpuSpec (formatCpuSpec {0, 1, 2, 5, 7, 8} true) = .ok {0, 1, 2, 5, 7, 8} ∧
      parseCpuSpec ([','].intercalate ["^3".toList, "6".toList, "1-4".toList]) = .ok {1, 2, 4, 6} :=
  cpuSpec_sound {0, 1, 2, 5, 7, 8} (by decide) true "1-4,^3,6".toList {1, 2, 4, 6} (by decide +kernel)
    ["^3".toList, "6".toList, "1-4".toList] (by decide +kernel)

end Mitaka.Nova
