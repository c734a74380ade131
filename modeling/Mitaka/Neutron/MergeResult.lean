/-
  Subject: neutron/agent/linux/iptables_manager.py, what `_modify_rules` makes of a listing.

  The weeding keeps the last of equal lines and drops what is slated (`modifyRules_eq`). So
  foreign lines stay in their order, each once, and the rules of the table stand in the
  middle, those for the top first. **When the unwrapped chains are declared in the listing,
  the result is a fixed point** (`Settled.modifyRules_modifyRules`); chains that were not are
  put behind the wrapped ones the first time, and before them from then on.
-/
import Mitaka.Neutron.ChainRemoval

namespace Mitaka.Neutron.Firewall

open List

/-! ## 1. Lists without repetitions -/

section Lists

variable {α : Type} [DecidableEq α]

/-- Of equal members the last one is kept. -/
theorem dedup_append_filter {p : α → Bool} {b : List α} (hp : ∀ x, p x = true ↔ x ∉ b) (a : List α) :
    (a ++ b).dedup = (a.filter p).dedup ++ b.dedup := by
  induction a with
  | nil => rfl
  | cons x a ih =>
    rw [cons_append]
    by_cases hb : x ∈ b
    · have hpx : ¬ p x = true := fun h => (hp x).mp h hb
      rw [dedup_cons_of_mem (mem_append_right _ hb), ih, filter_cons_of_neg hpx]
    · have hpx := (hp x).mpr hb
      rw [filter_cons_of_pos hpx]
      by_cases ha : x ∈ a
      · have hmem : x ∈ a.filter p := mem_filter.mpr ⟨ha, hpx⟩
        rw [dedup_cons_of_mem (mem_append_left _ ha), ih, dedup_cons_of_mem hmem]
      · have hnot : x ∉ a.filter p := fun h => ha (mem_of_mem_filter h)
        have hnot' : x ∉ a ++ b := fun h => (mem_append.mp h).elim ha hb
        rw [dedup_cons_of_notMem hnot', ih, dedup_cons_of_notMem hnot, cons_append]

theorem dedup_append_of_disjoint {a b : List α} (h : ∀ x ∈ a, x ∉ b) : (a ++ b).dedup = a.dedup ++ b.dedup := by
  have hp : ∀ x, (fun x => decide (x ∉ b)) x = true ↔ x ∉ b := fun x => decide_eq_true_iff
  rw [dedup_append_filter hp, filter_eq_self.mpr fun x hx => decide_eq_true (h x hx)]

theorem filter_dedup (p : α → Bool) (l : List α) : l.dedup.filter p = (l.filter p).dedup := by
  induction l with
  | nil => rfl
  | cons x l ih =>
    by_cases hl : x ∈ l
    · rw [dedup_cons_of_mem hl, ih]
      by_cases hp : p x = true
      · rw [filter_cons_of_pos hp, dedup_cons_of_mem (mem_filter.mpr ⟨hl, hp⟩)]
      · rw [filter_cons_of_neg hp]
    · rw [dedup_cons_of_notMem hl]
      by_cases hp : p x = true
      · rw [filter_cons_of_pos hp, filter_cons_of_pos hp, ih,
          dedup_cons_of_notMem fun h => hl (mem_of_mem_filter h)]
      · rw [filter_cons_of_neg hp, filter_cons_of_neg hp, ih]

end Lists

/-! ## 2. The weeding -/

instance (removeChains removeRules : List Line) (line : Line) : Decidable (Slated removeChains removeRules line) :=
  inferInstanceAs (Decidable (_ ∨ _))

/-- A removal that another line uses up is not missed. -/
theorem slated_erase_chain {removeChains removeRules : List Line} {x y : Line} (hy : y.head? = some ':') (h : x ≠ y) :
    Slated (removeChains.erase (y.drop 1)) removeRules x ↔ Slated removeChains removeRules x := by
  refine or_congr (and_congr_right fun hx => mem_erase_of_ne fun he => h ?_) Iff.rfl
  obtain ⟨s, rfl⟩ : ∃ s, x = ':' :: s := head?_eq_some_iff.mp hx
  obtain ⟨s', rfl⟩ : ∃ s', y = ':' :: s' := head?_eq_some_iff.mp hy
  exact congrArg _ he

theorem slated_erase_rule {removeChains removeRules : List Line} {x y : Line} (h : x ≠ y) :
    Slated removeChains (removeRules.erase y) x ↔ Slated removeChains removeRules x :=
  or_congr Iff.rfl (and_congr_right fun _ => mem_erase_of_ne h)

/-- **What the weeding leaves.** -/
theorem weedOut_eq (lines seenLines removeChains removeRules : List Line) :
    weedOut lines seenLines removeChains removeRules =
      ((lines.reverse.filter (· ∉ seenLines)).dedup.reverse).filter fun x => ¬ Slated removeChains removeRules x := by
  induction lines generalizing seenLines removeChains removeRules with
  | nil => rfl
  | cons line rest ih =>
    by_cases hseen : line ∈ seenLines
    · have hlast : ([line].filter (· ∉ seenLines)) = [] := filter_eq_nil_iff.mpr fun x hx => by
        rw [mem_singleton.mp hx]
        simpa using hseen
      rw [weedOut, if_pos hseen, ih, reverse_cons, filter_append, hlast, append_nil]
    · -- the line is the last of its kind in the reversed list
      have hlast : ([line].filter (· ∉ seenLines)) = [line] :=
        filter_eq_self.mpr fun x hx => decide_eq_true (mem_singleton.mp hx ▸ hseen)
      have hrest : (rest.reverse.filter (· ∉ seenLines)).filter (· ≠ line) = rest.reverse.filter (· ∉ line :: seenLines) := by
        rw [List.filter_filter]
        refine filter_congr fun x _ => ?_
        rw [Bool.eq_iff_iff, Bool.and_eq_true, decide_eq_true_iff, decide_eq_true_iff, decide_eq_true_iff, mem_cons, not_or]
      have hother : ∀ x, (fun x => decide (x ≠ line)) x = true ↔ x ∉ [line] := fun x => by
        rw [decide_eq_true_iff, mem_singleton]
      have htail : ∀ rc rr, (∀ x, x ≠ line → (Slated rc rr x ↔ Slated removeChains removeRules x)) →
          weedOut rest (line :: seenLines) rc rr =
            ((rest.reverse.filter (· ∉ line :: seenLines)).dedup.reverse).filter
              fun x => ¬ Slated removeChains removeRules x := fun rc rr hsame => by
        rw [ih]
        refine filter_congr fun x hx => decide_eq_decide.mpr (not_congr (hsame x ?_))
        have hmem := (mem_filter.mp (mem_dedup.mp (mem_reverse.mp hx))).2
        exact fun he => (of_decide_eq_true hmem) (he ▸ mem_cons_self)
      rw [weedOut, if_neg hseen, reverse_cons, filter_append, hlast, dedup_append_filter hother, hrest,
        dedup_eq_self.mpr (nodup_singleton line), reverse_append, reverse_singleton, singleton_append]
      have hkept : ¬ Slated removeChains removeRules line →
          line :: weedOut rest (line :: seenLines) removeChains removeRules =
            (line :: (rest.reverse.filter (· ∉ line :: seenLines)).dedup.reverse).filter
              fun x => ¬ Slated removeChains removeRules x := fun h => by
        rw [filter_cons_of_pos (by simpa using h), htail _ _ fun _ _ => Iff.rfl]
      have hgone : ∀ rc rr, (∀ x, x ≠ line → (Slated rc rr x ↔ Slated removeChains removeRules x)) →
          Slated removeChains removeRules line → weedOut rest (line :: seenLines) rc rr =
            (line :: (rest.reverse.filter (· ∉ line :: seenLines)).dedup.reverse).filter
              fun x => ¬ Slated removeChains removeRules x := fun rc rr hsame h => by
        rw [filter_cons_of_neg (by simpa using h), htail _ _ hsame]
      by_cases hchain : line.head? = some ':'
      · rw [if_pos hchain]
        by_cases hmem : line.drop 1 ∈ removeChains
        · rw [if_pos hmem]
          exact hgone _ _ (fun x hx => slated_erase_chain hchain hx) (Or.inl ⟨hchain, hmem⟩)
        · rw [if_neg hmem]
          exact hkept fun h => h.elim (fun h => hmem h.2) fun h => h.1 hchain
      · rw [if_neg hchain]
        by_cases hmem : line ∈ removeRules
        · rw [if_pos hmem]
          exact hgone _ _ (fun x hx => slated_erase_rule hx) (Or.inr ⟨hchain, hmem⟩)
        · rw [if_neg hmem]
          exact hkept fun h => h.elim (fun h => hchain h.1) fun h => hmem h.2

section Merged

variable {commentIptablesRules : Bool} {wrapName : Line}

theorem modifyRules_eq (t : ManagedTable) (currentLines : List Line) :
    (modifyRules commentIptablesRules wrapName t currentLines).1 =
      (merged commentIptablesRules wrapName t.toIptablesTable currentLines).dedup.filter
        fun x => ¬ Slated t.removeChains t.removeRules x := by
  have hseen : ∀ l : List Line, l.filter (· ∉ ([] : List Line)) = l := fun l =>
    filter_eq_self.mpr fun x _ => decide_eq_true not_mem_nil
  rw [modifyRules, weedOut_eq, reverse_reverse, hseen, ← filter_reverse, reverse_reverse]

/-- The text of a rule of the table is in a line. -/
def HasRule (commentIptablesRules : Bool) (wrapName : Line) (rules : List IptablesRule) (x : Line) : Prop :=
  ∃ r ∈ rules, r.text commentIptablesRules wrapName <:+: x

instance (rules : List IptablesRule) (x : Line) : Decidable (HasRule commentIptablesRules wrapName rules x) :=
  inferInstanceAs (Decidable (∃ r ∈ rules, _))

theorem withoutRules_eq (rules : List IptablesRule) (l : List Line) :
    withoutRules commentIptablesRules wrapName rules l = l.filter fun x => ¬ HasRule commentIptablesRules wrapName rules x := by
  induction rules generalizing l with
  | nil =>
    refine (filter_eq_self.mpr fun x _ => ?_).symm
    simp [HasRule]
  | cons r rules ih =>
    rw [withoutRules, foldl_cons]
    refine (ih _).trans ?_
    rw [List.filter_filter]
    refine filter_congr fun x _ => ?_
    simp [HasRule, Bool.and_comm]

/-! ## 3. Lines -/

theorem strip_within (s : Line) : Swift.strip s <:+: s := by
  have hprefix : Swift.strip s <+: s.dropWhile Swift.isSpace := by
    rw [← reverse_suffix, Swift.strip, reverse_reverse]
    exact dropWhile_suffix _
  exact hprefix.isInfix.trans (dropWhile_suffix _).isInfix

theorem strip_strip (s : Line) : Swift.strip (Swift.strip s) = Swift.strip s := by
  refine Swift.strip_eq_self (fun c hc => ?_) fun c hc => ?_
  · have hprefix : Swift.strip s <+: s.dropWhile Swift.isSpace := by
      rw [← reverse_suffix, Swift.strip, reverse_reverse]
      exact dropWhile_suffix _
    obtain ⟨rest, hrest⟩ := hprefix
    have hhead : (s.dropWhile Swift.isSpace).head? = some c := by
      rw [← hrest, head?_append, hc]
      rfl
    have hnot := head?_dropWhile_not Swift.isSpace s
    rw [hhead] at hnot
    simpa using hnot
  · rw [Swift.strip, getLast?_reverse] at hc
    have hnot := head?_dropWhile_not Swift.isSpace (s.dropWhile Swift.isSpace).reverse
    rw [hc] at hnot
    simpa using hnot

theorem mem_foreignLines {currentLines : List Line} {x : Line} (h : x ∈ foreignLines wrapName currentLines) :
    ¬ wrapName <:+: x ∧ Swift.strip x = x := by
  obtain ⟨line, hline, rfl⟩ := List.mem_map.mp h
  have hnot := of_decide_eq_true (mem_filter.mp hline).2
  exact ⟨fun hwithin => hnot (hwithin.trans (strip_within line)), strip_strip line⟩

/-- Lines as they are kept are foreign again. -/
theorem foreignLines_of_kept {l : List Line} (h : ∀ x ∈ l, ¬ wrapName <:+: x ∧ Swift.strip x = x) : foreignLines wrapName l = l := by
  rw [foreignLines, filter_eq_self.mpr fun x hx => decide_eq_true (h x hx).1]
  exact (map_congr_left fun x hx => (h x hx).2).trans (List.map_id l)

theorem foreignLines_append (a b : List Line) :
    foreignLines wrapName (a ++ b) = foreignLines wrapName a ++ foreignLines wrapName b := by
  rw [foreignLines, filter_append, map_append]
  rfl

theorem findRulesIndexLoop_chains {chains rest : List Line} (hchains : ∀ x ∈ chains, x.head? = some ':') (hne : rest ≠ [])
    (hrest : ∀ x ∈ rest, x.head? ≠ some ':') (k i : ℕ) :
    findRulesIndexLoop true k (chains ++ rest) i = (true, i + chains.length) := by
  induction chains generalizing k i with
  | nil =>
    obtain ⟨x, rest, rfl⟩ := exists_cons_of_ne_nil hne
    rw [nil_append, findRulesIndexLoop, if_pos ⟨rfl, hrest x mem_cons_self⟩]
    rfl
  | cons x chains ih =>
    obtain ⟨hx, hchains⟩ := forall_mem_cons.mp hchains
    rw [cons_append, findRulesIndexLoop, if_neg fun h => h.2 hx, Bool.true_or, ih hchains, length_cons]
    exact congrArg _ (by omega)

/-- The index is behind the declarations. -/
theorem findRulesIndex_eq {header chains rest : List Line} (hheader : ∀ x ∈ header, x.head? ≠ some ':') (hne : chains ≠ [])
    (hchains : ∀ x ∈ chains, x.head? = some ':') (hne' : rest ≠ []) (hrest : ∀ x ∈ rest, x.head? ≠ some ':') :
    findRulesIndex (header ++ (chains ++ rest)) = (header ++ chains).length := by
  have hloop : ∀ k i, findRulesIndexLoop false k (header ++ (chains ++ rest)) i = (true, i + (header ++ chains).length) := by
    induction header with
    | nil =>
      intro k i
      obtain ⟨x, chains, rfl⟩ := exists_cons_of_ne_nil hne
      obtain ⟨hx, hchains⟩ := forall_mem_cons.mp hchains
      rw [nil_append, cons_append, findRulesIndexLoop, if_neg fun h => absurd h.1 (by decide), Bool.false_or,
        decide_eq_true hx, findRulesIndexLoop_chains hchains hne' hrest, nil_append, length_cons]
      exact congrArg _ (by omega)
    | cons x header ih =>
      intro k i
      obtain ⟨hx, hheader⟩ := forall_mem_cons.mp hheader
      rw [cons_append, findRulesIndexLoop, if_neg fun h => absurd h.1 (by decide), Bool.false_or,
        decide_eq_false hx, ih hheader, cons_append, length_cons]
      exact congrArg _ (by omega)
  rw [findRulesIndex, hloop]
  exact Nat.zero_add _

theorem hasRule_text {rules : List IptablesRule} {r : IptablesRule} (h : r ∈ rules) :
    HasRule commentIptablesRules wrapName rules (r.text commentIptablesRules wrapName) := ⟨r, h, infix_refl _⟩

theorem infix_wrapped (wrapName name : Line) : wrapName <:+: ':' :: fullName wrapName name true :=
  ⟨[':'], '-' :: name, by simp [fullName]⟩

theorem mem_ourChains {t : IptablesTable} {newFilter : List Line} {x : Line} :
    x ∈ ourChains wrapName t newFilter ↔ (∃ name ∈ t.chains, ':' :: fullName wrapName name true = x) ∨
      ∃ name ∈ t.unwrappedChains, (¬ ∃ s ∈ newFilter, ':' :: name <:+: s) ∧ ':' :: name = x := by
  rw [ourChains, mem_append, List.mem_map, List.mem_map]
  refine or_congr ?_ ?_
  · simp only [mem_sortedChains]
  · simp only [mem_filter, mem_sortedChains, List.any_eq_true, decide_eq_true_eq, and_assoc]

/-! ## 4. One merge -/

/-- A line that is neither of the table nor slated. -/
def Foreign (commentIptablesRules : Bool) (wrapName : Line) (t : ManagedTable) (x : Line) : Prop :=
  ¬ wrapName <:+: x ∧ ¬ HasRule commentIptablesRules wrapName t.rules x ∧ (∀ name ∈ t.unwrappedChains, x ≠ ':' :: name) ∧
    ¬ Slated t.removeChains t.removeRules x

instance (t : ManagedTable) (x : Line) : Decidable (Foreign commentIptablesRules wrapName t x) :=
  inferInstanceAs (Decidable (_ ∧ _))

/-- The lines of the rules: those for the top, and the others. -/
def topLines (commentIptablesRules : Bool) (wrapName : Line) (t : IptablesTable) : List Line :=
  (t.rules.filter fun r => r.top).map (·.text commentIptablesRules wrapName)

def bottomLines (commentIptablesRules : Bool) (wrapName : Line) (t : IptablesTable) : List Line :=
  (t.rules.filter fun r => !r.top).map (·.text commentIptablesRules wrapName)

theorem mem_ruleLines {t : IptablesTable} {x : Line} :
    x ∈ topLines commentIptablesRules wrapName t ++ bottomLines commentIptablesRules wrapName t ↔
      ∃ r ∈ t.rules, r.text commentIptablesRules wrapName = x := by
  rw [mem_append, topLines, bottomLines, List.mem_map, List.mem_map]
  constructor
  · rintro (⟨r, hr, htext⟩ | ⟨r, hr, htext⟩)
    · exact ⟨r, mem_of_mem_filter hr, htext⟩
    · exact ⟨r, mem_of_mem_filter hr, htext⟩
  · rintro ⟨r, hr, htext⟩
    cases htop : r.top with
    | true => exact Or.inl ⟨r, mem_filter.mpr ⟨hr, htop⟩, htext⟩
    | false => exact Or.inr ⟨r, mem_filter.mpr ⟨hr, by rw [htop]; rfl⟩, htext⟩

/-- The lines that are kept of a listing. -/
def keptLines (commentIptablesRules : Bool) (wrapName : Line) (t : IptablesTable) (currentLines : List Line) : List Line :=
  (foreignLines wrapName currentLines).filter fun x => ¬ HasRule commentIptablesRules wrapName t.rules x

/-- The lines of the table. -/
def ownLines (commentIptablesRules : Bool) (wrapName : Line) (t : IptablesTable) (currentLines : List Line) : List Line :=
  ourChains wrapName t (foreignLines wrapName currentLines) ++
    (topLines commentIptablesRules wrapName t ++ bottomLines commentIptablesRules wrapName t)

variable {t : ManagedTable} {currentLines : List Line}

theorem merged_eq (t : IptablesTable) (currentLines : List Line) : merged commentIptablesRules wrapName t currentLines =
    (keptLines commentIptablesRules wrapName t currentLines).take
        (findRulesIndex (keptLines commentIptablesRules wrapName t currentLines)) ++
      (ownLines commentIptablesRules wrapName t currentLines ++
        (keptLines commentIptablesRules wrapName t currentLines).drop
          (findRulesIndex (keptLines commentIptablesRules wrapName t currentLines))) := by
  unfold merged
  dsimp only
  rw [withoutRules_eq, append_assoc, append_assoc (ourChains _ _ _)]
  rfl

/-- What is kept is no line of the table. -/
theorem keptLines_notMem {t : IptablesTable} {x : Line} (hx : x ∈ keptLines commentIptablesRules wrapName t currentLines) :
    x ∉ ownLines commentIptablesRules wrapName t currentLines := by
  obtain ⟨hforeign, hrule⟩ := mem_filter.mp hx
  intro hown
  rcases mem_append.mp hown with hchain | hown
  · rcases mem_ourChains.mp hchain with ⟨name, -, rfl⟩ | ⟨name, -, hnot, rfl⟩
    · exact (mem_foreignLines hforeign).1 (infix_wrapped wrapName name)
    · exact hnot ⟨_, hforeign, infix_refl _⟩
  · obtain ⟨r, hr, rfl⟩ := mem_ruleLines.mp hown
    exact (of_decide_eq_true hrule) (hasRule_text hr)

/-- **Foreign lines stay**, each at its last place. -/
theorem filter_foreign (t : ManagedTable) (currentLines : List Line) :
    (modifyRules commentIptablesRules wrapName t currentLines).1.filter (fun x => Foreign commentIptablesRules wrapName t x) =
      ((foreignLines wrapName currentLines).filter fun x => Foreign commentIptablesRules wrapName t x).dedup := by
  have hslated : ∀ l : List Line, (l.filter fun x => ¬ Slated t.removeChains t.removeRules x).filter
      (fun x => Foreign commentIptablesRules wrapName t x) = l.filter fun x => Foreign commentIptablesRules wrapName t x := fun l => by
    rw [List.filter_filter]
    refine filter_congr fun x _ => ?_
    rw [Bool.eq_iff_iff, Bool.and_eq_true, decide_eq_true_iff, decide_eq_true_iff]
    exact ⟨And.left, fun h => ⟨h, h.2.2.2⟩⟩
  have hkept : (keptLines commentIptablesRules wrapName t.toIptablesTable currentLines).filter
      (fun x => Foreign commentIptablesRules wrapName t x) =
      (foreignLines wrapName currentLines).filter fun x => Foreign commentIptablesRules wrapName t x := by
    rw [keptLines, List.filter_filter]
    refine filter_congr fun x _ => ?_
    rw [Bool.eq_iff_iff, Bool.and_eq_true, decide_eq_true_iff, decide_eq_true_iff]
    exact ⟨And.left, fun h => ⟨h, h.2.1⟩⟩
  have hown : (ownLines commentIptablesRules wrapName t.toIptablesTable currentLines).filter
      (fun x => Foreign commentIptablesRules wrapName t x) = [] := filter_eq_nil_iff.mpr fun x hx hforeign => by
    obtain ⟨hwrap, hrule, hchain, -⟩ := of_decide_eq_true hforeign
    rcases mem_append.mp hx with hx | hx
    · rcases mem_ourChains.mp hx with ⟨name, -, rfl⟩ | ⟨name, hname, -, rfl⟩
      · exact hwrap (infix_wrapped wrapName name)
      · exact hchain name hname rfl
    · obtain ⟨r, hr, rfl⟩ := mem_ruleLines.mp hx
      exact hrule (hasRule_text hr)
  rw [modifyRules_eq, hslated, filter_dedup, merged_eq, filter_append, filter_append, hown, nil_append,
    ← filter_append, take_append_drop, hkept]

/-- **The rules of the table stand in the middle**, those for the top first. -/
theorem filter_rules (t : ManagedTable) (currentLines : List Line) :
    (modifyRules commentIptablesRules wrapName t currentLines).1.filter
        (fun x => x ∈ topLines commentIptablesRules wrapName t.toIptablesTable ++ bottomLines commentIptablesRules wrapName t.toIptablesTable) =
      (((topLines commentIptablesRules wrapName t.toIptablesTable).filter
          (· ∉ bottomLines commentIptablesRules wrapName t.toIptablesTable)).dedup ++
        (bottomLines commentIptablesRules wrapName t.toIptablesTable).dedup).filter
          fun x => ¬ Slated t.removeChains t.removeRules x := by
  obtain ⟨lines, hlines⟩ : ∃ lines, lines = topLines commentIptablesRules wrapName t.toIptablesTable ++
    bottomLines commentIptablesRules wrapName t.toIptablesTable := ⟨_, rfl⟩
  have hmem : ∀ x, x ∈ lines ↔ ∃ r ∈ t.rules, r.text commentIptablesRules wrapName = x := fun x => by
    rw [hlines, mem_ruleLines]
  have hkept : ∀ l : List Line, (∀ x ∈ l, x ∈ keptLines commentIptablesRules wrapName t.toIptablesTable currentLines) →
      l.filter (fun x => x ∈ lines) = [] := fun l hl => filter_eq_nil_iff.mpr fun x hx hin => by
    obtain ⟨r, hr, rfl⟩ := (hmem x).mp (of_decide_eq_true hin)
    exact (of_decide_eq_true (mem_filter.mp (hl _ hx)).2) (hasRule_text hr)
  have hchains : (ourChains wrapName t.toIptablesTable (foreignLines wrapName currentLines)).filter (fun x => x ∈ lines) = [] :=
    filter_eq_nil_iff.mpr fun x hx hin => by
      obtain ⟨r, hr, rfl⟩ := (hmem x).mp (of_decide_eq_true hin)
      have hhead := text_head commentIptablesRules wrapName r
      rcases mem_ourChains.mp hx with ⟨name, -, heq⟩ | ⟨name, -, -, heq⟩
      · rw [← heq] at hhead
        cases hhead
      · rw [← heq] at hhead
        cases hhead
  have hother : ∀ x, (fun x => decide (x ∉ bottomLines commentIptablesRules wrapName t.toIptablesTable)) x = true ↔
      x ∉ bottomLines commentIptablesRules wrapName t.toIptablesTable := fun x => decide_eq_true_iff
  rw [← dedup_append_filter hother, ← hlines, modifyRules_eq, filter_comm, filter_dedup, merged_eq, filter_append,
    filter_append, hkept _ fun x hx => mem_of_mem_take hx, hkept _ fun x hx => mem_of_mem_drop hx,
    ownLines, filter_append, hchains, ← hlines, filter_eq_self.mpr fun x hx => decide_eq_true hx]
  simp

/-! ## 5. A second merge -/

/-- A listing as iptables-save prints it, for a table of which nothing is slated. -/
structure Printed (commentIptablesRules : Bool) (wrapName : Line) (t : ManagedTable) (currentLines : List Line) : Prop where
  shape : ∃ header chains rest, keptLines commentIptablesRules wrapName t.toIptablesTable currentLines = header ++ (chains ++ rest) ∧
    (∀ x ∈ header, x.head? ≠ some ':') ∧ (∀ x ∈ chains, x.head? = some ':') ∧ (∀ x ∈ rest, x.head? ≠ some ':') ∧
    (∃ x ∈ chains, ¬ Slated t.removeChains t.removeRules x) ∧ ∃ x ∈ rest, ¬ Slated t.removeChains t.removeRules x
  unslated : ∀ x ∈ ownLines commentIptablesRules wrapName t.toIptablesTable currentLines, ¬ Slated t.removeChains t.removeRules x
  rules : ∀ r ∈ t.rules, Swift.strip (r.text commentIptablesRules wrapName) = r.text commentIptablesRules wrapName

/-- The declaration of a chain is in a line that stays. -/
def DeclaredIn (commentIptablesRules : Bool) (wrapName : Line) (t : ManagedTable) (currentLines : List Line) (name : Line) : Prop :=
  ∃ x ∈ keptLines commentIptablesRules wrapName t.toIptablesTable currentLines,
    ¬ Slated t.removeChains t.removeRules x ∧ ':' :: name <:+: x

/-- The unwrapped chains of the table are declared in the listing. -/
structure Settled (commentIptablesRules : Bool) (wrapName : Line) (t : ManagedTable) (currentLines : List Line) : Prop
    extends Printed commentIptablesRules wrapName t currentLines where
  declared : ∀ name ∈ t.unwrappedChains, DeclaredIn commentIptablesRules wrapName t currentLines name

/-- The unwrapped chains of the table are declared in the listing or not found there, and their declarations are foreign
lines in a listing. -/
structure Ready (commentIptablesRules : Bool) (wrapName : Line) (t : ManagedTable) (currentLines : List Line) : Prop
    extends Printed commentIptablesRules wrapName t currentLines where
  found : ∀ name ∈ t.unwrappedChains, DeclaredIn commentIptablesRules wrapName t currentLines name ∨
    ¬ ∃ x ∈ foreignLines wrapName currentLines, ':' :: name <:+: x
  plain : ∀ name ∈ t.unwrappedChains, ¬ wrapName <:+: ':' :: name ∧ Swift.strip (':' :: name) = ':' :: name ∧
    ¬ HasRule commentIptablesRules wrapName t.rules (':' :: name)

theorem ourChains_declared {t : IptablesTable} {newFilter : List Line}
    (h : ∀ name ∈ t.unwrappedChains, ∃ x ∈ newFilter, ':' :: name <:+: x) :
    ourChains wrapName t newFilter = (sortedChains t.chains).map fun name => ':' :: fullName wrapName name true := by
  rw [ourChains, filter_eq_nil_iff.mpr fun name hname hnot => ?_, map_nil, append_nil]
  obtain ⟨x, hx, hwithin⟩ := h name (mem_sortedChains.mp hname)
  refine of_decide_eq_true hnot (List.any_eq_true.mpr ⟨x, hx, decide_eq_true hwithin⟩)

/-- Nothing is slated in the table that a merge leaves. -/
theorem not_slated_nil (x : Line) : ¬ Slated [] [] x := fun h => h.elim (fun h => not_mem_nil h.2) fun h => not_mem_nil h.2

/-- The parts of the result: what is kept before the lines of the table, and what is kept behind them. -/
theorem Printed.parts (h : Printed commentIptablesRules wrapName t currentLines) :
    ∃ header chains rest, (modifyRules commentIptablesRules wrapName t currentLines).1 = header ++ chains ++
        ((ownLines commentIptablesRules wrapName t.toIptablesTable currentLines).dedup ++ rest) ∧
      (header ++ chains).Nodup ∧ rest.Nodup ∧ (∀ x ∈ header ++ chains, x ∉ rest) ∧
      (∀ x, x ∈ header ++ chains ++ rest ↔ x ∈ keptLines commentIptablesRules wrapName t.toIptablesTable currentLines ∧
        ¬ Slated t.removeChains t.removeRules x) ∧
      (∀ x ∈ header, x.head? ≠ some ':') ∧ (∀ x ∈ chains, x.head? = some ':') ∧ (∀ x ∈ rest, x.head? ≠ some ':') ∧
      chains ≠ [] ∧ rest ≠ [] := by
  obtain ⟨header, chains, rest, hshape, hheader, hchains, hrest, ⟨c, hc, hcSlated⟩, ⟨r, hr, hrSlated⟩⟩ := h.shape
  obtain ⟨own, hown⟩ : ∃ own, own = ownLines commentIptablesRules wrapName t.toIptablesTable currentLines := ⟨_, rfl⟩
  obtain ⟨kept, hkept⟩ : ∃ kept : Line → Bool, kept = fun x => decide (¬ Slated t.removeChains t.removeRules x) := ⟨_, rfl⟩
  have hkeptIff : ∀ x, kept x = true ↔ ¬ Slated t.removeChains t.removeRules x := fun x => by rw [hkept, decide_eq_true_iff]
  have hdisjoint : ∀ x ∈ header ++ (chains ++ rest), x ∉ own := fun x hx => by
    rw [hown]
    exact keptLines_notMem (hshape ▸ hx)
  have hindex : findRulesIndex (header ++ (chains ++ rest)) = (header ++ chains).length :=
    findRulesIndex_eq hheader (ne_nil_of_mem hc) hchains (ne_nil_of_mem hr) hrest
  -- the last of equal lines: those of the table are apart from what is kept
  have hresult : (modifyRules commentIptablesRules wrapName t currentLines).1 =
      (((header ++ chains).filter (· ∉ rest)).dedup).filter kept ++ (own.dedup ++ rest.dedup.filter kept) := by
    have hownKept : own.dedup.filter kept = own.dedup := filter_eq_self.mpr fun x hx => by
      rw [hkeptIff]
      exact h.unslated x (hown ▸ mem_dedup.mp hx)
    have hsplit : (header ++ chains ++ (own ++ rest)).dedup =
        ((header ++ chains).filter (· ∉ rest)).dedup ++ (own.dedup ++ rest.dedup) := by
      have hcomm : ((header ++ chains).filter (· ∉ rest)).dedup ++ (own.dedup ++ rest.dedup) =
          ((header ++ chains).filter fun x => decide (x ∉ own ++ rest)).dedup ++ (own ++ rest).dedup := by
        rw [dedup_append_of_disjoint fun x hx hx' => hdisjoint x (by
          rw [← append_assoc]
          exact mem_append_right _ hx') hx]
        congr 2
        refine filter_congr fun x hx => decide_eq_decide.mpr ?_
        rw [mem_append, not_or]
        exact ⟨fun hnot => ⟨hdisjoint x (by rw [← append_assoc]; exact mem_append_left _ hx), hnot⟩, And.right⟩
      rw [hcomm]
      exact dedup_append_filter (fun x => decide_eq_true_iff) _
    rw [modifyRules_eq, merged_eq, hshape, hindex, ← append_assoc header, take_left, drop_left, ← hown, hsplit,
      filter_append _ (own.dedup ++ rest.dedup), filter_append own.dedup rest.dedup, ← hkept, hownKept]
  have hsub : ((((header ++ chains).filter (· ∉ rest)).dedup).filter kept).Sublist (header ++ chains) :=
    filter_sublist.trans ((dedup_sublist _).trans filter_sublist)
  obtain ⟨header', chains', heq, hheader', hchains'⟩ := sublist_append_iff.mp hsub
  have hfront : ∀ x, x ∈ header' ++ chains' ↔ (x ∈ header ++ chains ∧ x ∉ rest) ∧ ¬ Slated t.removeChains t.removeRules x := fun x => by
    rw [← heq, mem_filter, mem_dedup, mem_filter, hkeptIff, decide_eq_true_iff]
  have hback : ∀ x, x ∈ rest.dedup.filter kept ↔ x ∈ rest ∧ ¬ Slated t.removeChains t.removeRules x := fun x => by
    rw [mem_filter, mem_dedup, hkeptIff]
  refine ⟨header', chains', rest.dedup.filter kept, ?_, ?_, (nodup_dedup _).filter _, fun x hx hx' => ?_, fun x => ?_,
    fun x hx => hheader x (hheader'.subset hx), fun x hx => hchains x (hchains'.subset hx),
    fun x hx => hrest x ((hback x).mp hx).1, ?_, ?_⟩
  · rw [hresult, heq, hown]
  · rw [← heq]
    exact (nodup_dedup _).filter _
  · exact ((hfront x).mp hx).1.2 ((hback x).mp hx').1
  · rw [hshape, mem_append, hfront, hback]
    simp only [mem_append]
    tauto
  · have hmem : c ∈ header' ++ chains' := (hfront c).mpr
      ⟨⟨mem_append_right _ hc, fun hin => hrest c hin (hchains c hc)⟩, hcSlated⟩
    rcases mem_append.mp hmem with hin | hin
    · exact absurd (hchains c hc) (hheader c (hheader'.subset hin))
    · exact ne_nil_of_mem hin
  · exact ne_nil_of_mem ((hback r).mpr ⟨hr, hrSlated⟩)

/-- A line that is kept is foreign and no rule of the table. -/
theorem mem_keptLines {t : IptablesTable} {x : Line} (hx : x ∈ keptLines commentIptablesRules wrapName t currentLines) :
    (¬ wrapName <:+: x ∧ Swift.strip x = x) ∧ ¬ HasRule commentIptablesRules wrapName t.rules x := by
  obtain ⟨hforeign, hrule⟩ := mem_filter.mp hx
  exact ⟨mem_foreignLines hforeign, of_decide_eq_true hrule⟩

/-- What a second merge keeps of a result: what the first one kept, and of the lines of the table those that look foreign. -/
theorem keptLines_parts {t : IptablesTable} {front rest : List Line} (own : List Line)
    (h : ∀ x ∈ front ++ rest, (¬ wrapName <:+: x ∧ Swift.strip x = x) ∧ ¬ HasRule commentIptablesRules wrapName t.rules x) :
    keptLines commentIptablesRules wrapName t (front ++ (own ++ rest)) =
      front ++ ((foreignLines wrapName own).filter (fun x => ¬ HasRule commentIptablesRules wrapName t.rules x) ++ rest) := by
  have hfront : foreignLines wrapName front = front := foreignLines_of_kept fun x hx => (h x (mem_append_left _ hx)).1
  have hrest : foreignLines wrapName rest = rest := foreignLines_of_kept fun x hx => (h x (mem_append_right _ hx)).1
  rw [keptLines, foreignLines_append, foreignLines_append, hfront, hrest, filter_append, filter_append,
    filter_eq_self.mpr fun x hx => decide_eq_true (h x (mem_append_left _ hx)).2,
    filter_eq_self.mpr fun x hx => decide_eq_true (h x (mem_append_right _ hx)).2]

/-- **The result is a fixed point.** -/
theorem Settled.modifyRules_modifyRules (h : Settled commentIptablesRules wrapName t currentLines) :
    (modifyRules commentIptablesRules wrapName (modifyRules commentIptablesRules wrapName t currentLines).2
      (modifyRules commentIptablesRules wrapName t currentLines).1).1 =
      (modifyRules commentIptablesRules wrapName t currentLines).1 := by
  obtain ⟨header, chains, rest, hresult, hnodup, hnodup', hdisjoint, hmem, hheader, hchains, hrest, hne, hne'⟩ := h.toPrinted.parts
  obtain ⟨own, hown⟩ : ∃ own, own = ownLines commentIptablesRules wrapName t.toIptablesTable currentLines := ⟨_, rfl⟩
  have hkeptLine := fun x hx => mem_keptLines ((hmem x).mp hx).1
  have hownChains : ourChains wrapName t.toIptablesTable (foreignLines wrapName currentLines) =
      (sortedChains t.chains).map fun name => ':' :: fullName wrapName name true :=
    ourChains_declared fun name hname => by
      obtain ⟨x, hx, -, hwithin⟩ := h.declared name hname
      exact ⟨x, mem_of_mem_filter hx, hwithin⟩
  -- of the lines of the table none is kept of the result
  have hownGone : (foreignLines wrapName own.dedup).filter
      (fun x => ¬ HasRule commentIptablesRules wrapName t.rules x) = [] := filter_eq_nil_iff.mpr fun x hx hnot => by
    obtain ⟨line, hline, rfl⟩ := List.mem_map.mp hx
    obtain ⟨hin, hwrap⟩ := mem_filter.mp hline
    rw [mem_dedup, hown, ownLines, mem_append, mem_ruleLines, hownChains, List.mem_map] at hin
    rcases hin with ⟨name, -, rfl⟩ | ⟨rule, hrule, rfl⟩
    · exact of_decide_eq_true hwrap (infix_wrapped wrapName name)
    · rw [h.rules rule hrule] at hnot
      exact of_decide_eq_true hnot (hasRule_text hrule)
  have hkept : keptLines commentIptablesRules wrapName t.toIptablesTable (header ++ chains ++ (own.dedup ++ rest)) =
      header ++ (chains ++ rest) := by
    rw [keptLines_parts own.dedup hkeptLine, hownGone, nil_append, append_assoc]
  have hchains' : ourChains wrapName t.toIptablesTable (foreignLines wrapName (header ++ chains ++ (own.dedup ++ rest))) =
      (sortedChains t.chains).map fun name => ':' :: fullName wrapName name true := ourChains_declared fun name hname => by
    obtain ⟨x, hx, hslated, hwithin⟩ := h.declared name hname
    have hin := (hmem x).mpr ⟨hx, hslated⟩
    rw [append_assoc, ← hkept] at hin
    exact ⟨x, mem_of_mem_filter hin, hwithin⟩
  have hown' : ownLines commentIptablesRules wrapName t.toIptablesTable (header ++ chains ++ (own.dedup ++ rest)) = own := by
    rw [ownLines, hchains', hown, ownLines, hownChains]
  have hindex := findRulesIndex_eq hheader hne hchains hne' hrest
  have hapart : ∀ x ∈ header ++ chains ++ rest, x ∉ own := fun x hx => by
    rw [hown]
    exact keptLines_notMem ((hmem x).mp hx).1
  have htable : (modifyRules commentIptablesRules wrapName t currentLines).2 = { t with removeRules := [], removeChains := [] } := rfl
  rw [htable, hresult, ← hown, modifyRules_eq, merged_eq]
  dsimp only
  rw [hkept, hown', hindex, ← append_assoc header, take_left, drop_left,
    filter_eq_self.mpr fun x _ => decide_eq_true (not_slated_nil x),
    dedup_append_of_disjoint (a := header ++ chains) (b := own ++ rest) fun x hx hx' => ?_,
    dedup_append_of_disjoint (a := own) (b := rest) fun x hx hx' => ?_, dedup_eq_self.mpr hnodup,
    dedup_eq_self.mpr hnodup']
  · exact hapart x (mem_append_right _ hx') hx
  · rcases mem_append.mp hx' with hin | hin
    · exact hapart x (mem_append_left _ hx) hin
    · exact hdisjoint x hx hin

/-- After one merge the unwrapped chains are declared. -/
theorem Ready.settled (h : Ready commentIptablesRules wrapName t currentLines) :
    Settled commentIptablesRules wrapName (modifyRules commentIptablesRules wrapName t currentLines).2
      (modifyRules commentIptablesRules wrapName t currentLines).1 := by
  obtain ⟨header, chains, rest, hresult, -, -, -, hmem, hheader, hchains, hrest, hne, hne'⟩ := h.toPrinted.parts
  obtain ⟨own, hown⟩ : ∃ own, own = ownLines commentIptablesRules wrapName t.toIptablesTable currentLines := ⟨_, rfl⟩
  obtain ⟨new, hnew⟩ : ∃ new, new = (foreignLines wrapName own.dedup).filter
    fun x => ¬ HasRule commentIptablesRules wrapName t.rules x := ⟨_, rfl⟩
  have hkeptLine := fun x hx => mem_keptLines ((hmem x).mp hx).1
  have hkept : keptLines commentIptablesRules wrapName t.toIptablesTable (header ++ chains ++ (own.dedup ++ rest)) =
      header ++ (chains ++ new ++ rest) := by
    rw [keptLines_parts own.dedup hkeptLine, ← hnew, append_assoc, append_assoc]
  -- of the lines of the table the unwrapped declarations look foreign
  have hnewChain : ∀ x ∈ new, x.head? = some ':' := fun x hx => by
    rw [hnew] at hx
    obtain ⟨hforeign, hrule⟩ := mem_filter.mp hx
    obtain ⟨line, hline, rfl⟩ := List.mem_map.mp hforeign
    obtain ⟨hin, hwrap⟩ := mem_filter.mp hline
    rw [mem_dedup, hown, ownLines, mem_append, mem_ruleLines] at hin
    rcases hin with hin | ⟨rule, hmemRule, rfl⟩
    · rcases mem_ourChains.mp hin with ⟨name, -, rfl⟩ | ⟨name, hname, -, rfl⟩
      · exact absurd (infix_wrapped wrapName name) (of_decide_eq_true hwrap)
      · rw [(h.plain name hname).2.1]
        rfl
    · rw [h.rules rule hmemRule] at hrule
      exact absurd (hasRule_text hmemRule) (of_decide_eq_true hrule)
  have hnewMem : ∀ name ∈ t.unwrappedChains, (¬ ∃ x ∈ foreignLines wrapName currentLines, ':' :: name <:+: x) → ':' :: name ∈ new := by
    intro name hname hnot
    obtain ⟨hwrap, hstrip, hrule⟩ := h.plain name hname
    have hin : ':' :: name ∈ own.dedup := by
      rw [mem_dedup, hown]
      exact mem_append_left _ (mem_ourChains.mpr (Or.inr ⟨name, hname, hnot, rfl⟩))
    rw [hnew]
    refine mem_filter.mpr ⟨List.mem_map.mpr ⟨_, mem_filter.mpr ⟨hin, decide_eq_true hwrap⟩, hstrip⟩, decide_eq_true hrule⟩
  have htable : (modifyRules commentIptablesRules wrapName t currentLines).2 = { t with removeRules := [], removeChains := [] } := rfl
  rw [htable, hresult, ← hown]
  refine ⟨⟨⟨header, chains ++ new, rest, hkept, hheader, ?_, hrest, ?_, ?_⟩, fun x _ => not_slated_nil x, h.rules⟩, ?_⟩
  · exact fun x hx => (mem_append.mp hx).elim (hchains x) (hnewChain x)
  · obtain ⟨x, hx⟩ := exists_mem_of_ne_nil _ hne
    exact ⟨x, mem_append_left _ hx, not_slated_nil x⟩
  · obtain ⟨x, hx⟩ := exists_mem_of_ne_nil _ hne'
    exact ⟨x, hx, not_slated_nil x⟩
  · intro name hname
    rcases h.found name hname with ⟨x, hx, hslated, hwithin⟩ | hnot
    · refine ⟨x, hkept ▸ ?_, not_slated_nil x, hwithin⟩
      have hin := (hmem x).mpr ⟨hx, hslated⟩
      simp only [mem_append] at hin ⊢
      tauto
    · refine ⟨':' :: name, hkept ▸ ?_, not_slated_nil _, infix_refl _⟩
      exact mem_append_right _ (mem_append_left _ (mem_append_right _ (hnewMem name hname hnot)))

/-- A listing of a table without rules. -/
def emptyListing : List Line := ["*f".toList, ":I - [0:0]".toList, "COMMIT".toList]

/-- A table with a wrapped chain and a rule in it. -/
def chainTable (unwrappedChains : List Line) : ManagedTable :=
  ⟨⟨[⟨"a".toList, "-j X".toList, true, false, none⟩], ["a".toList], unwrappedChains⟩, [], []⟩

theorem chainTable_settled : Settled false "w".toList (chainTable []) emptyListing where
  shape := ⟨["*f".toList], [":I - [0:0]".toList], ["COMMIT".toList], by decide, by decide, by decide, by decide,
    ⟨_, mem_cons_self, not_slated_nil _⟩, ⟨_, mem_cons_self, not_slated_nil _⟩⟩
  unslated := fun x _ => not_slated_nil x
  rules := by decide
  declared := nofun

end Merged

end Mitaka.Neutron.Firewall
