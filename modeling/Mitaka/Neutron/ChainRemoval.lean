/-
  Subject: neutron/agent/linux/iptables_manager.py, `remove_chain`, and what the next `apply`
           makes of it.

  The rules of a chain are found by its name alone, wrapped or not, and the jumps to it by a
  search for `-j <name>` in the text; an unwrapped chain is slated by its bare name, while
  iptables-save prints a policy and counters behind it. **`removeChain_exact_iff` is when
  none of this takes too much or leaves something behind.**
-/
import Mitaka.Neutron.TableMerge

namespace Mitaka.Neutron.Firewall

open List

/-! ## 1. What a removal is to take -/

/-- The rule jumps to a chain: its name is the word behind `-j`. -/
def JumpsTo (r : IptablesRule) (target : Line) : Prop := ["-j".toList, target] <:+: r.rule.splitOn ' '

instance (r : IptablesRule) (target : Line) : Decidable (JumpsTo r target) := inferInstanceAs (Decidable (_ <:+: _))

section Cascade

variable (wrapName name : Line) (wrap : Bool)

/-- The rules that go with a chain: its own, and those that jump to it. -/
def Cascades (r : IptablesRule) : Prop := (r.chain = name ∧ r.wrap = wrap) ∨ JumpsTo r (fullName wrapName name wrap)

instance (r : IptablesRule) : Decidable (Cascades wrapName name wrap r) := inferInstanceAs (Decidable (_ ∨ _))

/-- The table without the chain and the rules that go with it. -/
def cascade (t : IptablesTable) : IptablesTable :=
  { rules := t.rules.filter fun r => ¬ Cascades wrapName name wrap r
    chains := if wrap then t.chains.filter (· ≠ name) else t.chains
    unwrappedChains := if wrap then t.unwrappedChains else t.unwrappedChains.filter (· ≠ name) }

/-- A line that declares a chain. -/
def Declares (name line : Line) : Prop := line = ':' :: name ∨ ':' :: (name ++ [' ']) <+: line

variable (commentIptablesRules : Bool)

/-- The next listing has neither the chain nor a rule that goes with it. -/
structure Unlisted (t : IptablesTable) (lines : List Line) : Prop where
  chain : ∀ line ∈ lines, ¬ Declares name line
  rules : ∀ r ∈ t.rules, Cascades wrapName name wrap r → r.text commentIptablesRules wrapName ∉ lines

/-- The removal of a chain that is there takes what it is to take; the removal of another leaves the table alone. -/
def RemovedExactly (t t' : ManagedTable) (currentLines : List Line) : Prop :=
  if name ∈ ManagedTable.selectChainSet t.toIptablesTable wrap then
    t'.toIptablesTable = cascade wrapName name wrap t.toIptablesTable ∧
      (wrap = false →
        Unlisted wrapName name wrap commentIptablesRules t.toIptablesTable
          (modifyRules commentIptablesRules wrapName t' currentLines).1)
  else t' = t

/-- The lines that are kept of a listing, and the declarations of the table. -/
def declared (t : IptablesTable) (currentLines : List Line) : List Line :=
  withoutRules commentIptablesRules wrapName t.rules (foreignLines wrapName currentLines) ++
    ourChains wrapName t (foreignLines wrapName currentLines)

/-- **Nothing stands in the way of the removal**, in the rules of the table and in the listing. -/
structure Clear (t : ManagedTable) (currentLines : List Line) : Prop where
  /-- of a chain of the other kind with the same name, no rules but those that jump to the chain -/
  otherKind : ∀ r ∈ t.rules, r.chain = name → r.wrap ≠ wrap → JumpsTo r (fullName wrapName name wrap)
  /-- in the rules of the other chains the text of a jump is a jump to the chain -/
  text : ∀ r ∈ t.rules, r.chain ≠ name → ManagedTable.snippet wrapName name wrap <:+: r.rule →
    JumpsTo r (fullName wrapName name wrap)
  /-- no declaration, of those that are kept and of the other chains, has more behind the name -/
  bare : wrap = false → ∀ line ∈ declared wrapName commentIptablesRules (cascade wrapName name wrap t.toIptablesTable) currentLines,
    ':' :: (name ++ [' ']) <+: line → line.drop 1 ∈ t.removeChains

end Cascade

/-! ## 2. Jumps -/

theorem JumpsTo.within {r : IptablesRule} {target : Line} (h : JumpsTo r target) : "-j ".toList ++ target <:+: r.rule := by
  obtain ⟨front, back, hwords⟩ := h
  have hrule : intercalate [' '] (r.rule.splitOn ' ') = r.rule := intercalate_splitOn ' '
  have hjump : intercalate [' '] ["-j".toList, target] = "-j ".toList ++ target := by
    rw [intercalate_cons_of_ne_nil (cons_ne_nil _ _), intercalate_singleton]
    rfl
  -- the words in front and behind only add to the text
  have hback : "-j ".toList ++ target <+: intercalate [' '] (["-j".toList, target] ++ back) := by
    by_cases hnil : back = []
    · rw [hnil, append_nil, hjump]
    · rw [intercalate_append (cons_ne_nil _ _) hnil, hjump]
      exact prefix_append _ _
  refine hback.isInfix.trans ?_
  rw [← hrule, ← hwords, append_assoc]
  by_cases hnil : front = []
  · rw [hnil, nil_append]
  · rw [intercalate_append hnil (append_ne_nil_of_left_ne_nil (cons_ne_nil _ _) _)]
    exact ((suffix_append _ _).trans (suffix_append _ _)).isInfix

/-- A rule is not taken for a declaration. -/
theorem text_head (commentIptablesRules : Bool) (wrapName : Line) (r : IptablesRule) :
    (r.text commentIptablesRules wrapName).head? = some '-' := by
  obtain ⟨rest, hrest⟩ : ∃ rest, "-A ".toList ++ (fullName wrapName r.chain r.wrap ++ ' ' :: r.rule) = '-' :: 'A' :: ' ' :: rest :=
    ⟨_, rfl⟩
  rw [IptablesRule.text, hrest, commentRule]
  split_ifs with h hjump
  · rfl
  · exact absurd hjump (by simp)
  · split
    case h_1 jpos hpos =>
      have hne : jpos ≠ 0 := fun h0 => by
        have hprefix := find?_some hpos
        rw [h0] at hprefix
        simp at hprefix
      obtain ⟨k, rfl⟩ := Nat.exists_eq_succ_of_ne_zero hne
      rfl
    case h_2 => rfl

/-! ## 3. The removal -/

section Removal

variable {commentIptablesRules : Bool} {wrapName name : Line} {wrap : Bool} {t t' : ManagedTable} {currentLines : List Line}

/-- The rules that the code takes. -/
def Taken (wrapName name : Line) (wrap : Bool) (r : IptablesRule) : Prop :=
  r.chain = name ∨ ManagedTable.snippet wrapName name wrap <:+: r.rule

instance (r : IptablesRule) : Decidable (Taken wrapName name wrap r) := inferInstanceAs (Decidable (_ ∨ _))

theorem Cascades.taken {r : IptablesRule} (h : Cascades wrapName name wrap r) : Taken wrapName name wrap r :=
  h.imp And.left JumpsTo.within

theorem removeChain_table (hmem : getChainName name wrap ∈ ManagedTable.selectChainSet t.toIptablesTable wrap) :
    (t.removeChain commentIptablesRules wrapName name wrap).toIptablesTable =
      { cascade wrapName (getChainName name wrap) wrap t.toIptablesTable with
        rules := t.rules.filter fun r => ¬ Taken wrapName (getChainName name wrap) wrap r } := by
  unfold ManagedTable.removeChain
  dsimp only
  rw [if_neg (not_not.mpr hmem), cascade, List.filter_filter]
  dsimp only
  congr 1
  refine filter_congr fun r _ => ?_
  simp only [Taken, decide_not, not_or, Bool.decide_and, Bool.and_comm]

/-- What is slated when an unwrapped chain goes. -/
theorem removeChain_slated (hmem : getChainName name false ∈ ManagedTable.selectChainSet t.toIptablesTable false)
    (ht' : t' = t.removeChain commentIptablesRules wrapName name false) :
    (∀ c, c ∈ t'.removeChains ↔ c ∈ t.removeChains ∨ c = getChainName name false) ∧
      ∀ r ∈ t.rules, Taken wrapName (getChainName name false) false r → r.text commentIptablesRules wrapName ∈ t'.removeRules := by
  unfold ManagedTable.removeChain at ht'
  dsimp only at ht'
  rw [if_neg (not_not.mpr hmem)] at ht'
  subst ht'
  dsimp only
  constructor
  · intro c
    by_cases hthere : getChainName name false ∈ t.removeChains
    · rw [if_pos (Or.inr hthere)]
      exact ⟨Or.inl, fun h => h.elim id fun h => h ▸ hthere⟩
    · rw [if_neg (by simp [hthere]), mem_append, mem_singleton]
  · intro r hr htaken
    rw [if_neg (by decide), mem_append, mem_append]
    by_cases hchain : r.chain = getChainName name false
    · exact Or.inl (Or.inr (List.mem_map_of_mem (mem_filter.mpr ⟨hr, decide_eq_true hchain⟩)))
    · refine Or.inr (List.mem_map_of_mem (mem_filter.mpr ⟨mem_filter.mpr ⟨hr, decide_eq_true hchain⟩, ?_⟩))
      exact decide_eq_true (htaken.resolve_left hchain)

/-- The rules are as they should be exactly when the code takes none that it should not. -/
theorem filter_taken_iff {rules : List IptablesRule} :
    rules.filter (fun r => ¬ Taken wrapName name wrap r) = rules.filter (fun r => ¬ Cascades wrapName name wrap r) ↔
      (∀ r ∈ rules, r.chain = name → r.wrap ≠ wrap → JumpsTo r (fullName wrapName name wrap)) ∧
        ∀ r ∈ rules, r.chain ≠ name → ManagedTable.snippet wrapName name wrap <:+: r.rule →
          JumpsTo r (fullName wrapName name wrap) := by
  constructor
  · intro h
    have hall : ∀ r ∈ rules, Taken wrapName name wrap r → Cascades wrapName name wrap r := fun r hr htaken => by
      by_contra hnot
      have hmem : r ∈ rules.filter fun r => ¬ Taken wrapName name wrap r :=
        h ▸ mem_filter.mpr ⟨hr, decide_eq_true hnot⟩
      exact of_decide_eq_true (mem_filter.mp hmem).2 htaken
    constructor
    · exact fun r hr hchain hwrap => (hall r hr (Or.inl hchain)).resolve_left fun h => hwrap h.2
    · exact fun r hr hchain hsnippet => (hall r hr (Or.inr hsnippet)).resolve_left fun h => hchain h.1
  · rintro ⟨hkind, htext⟩
    refine filter_congr fun r hr => decide_eq_decide.mpr (not_congr ⟨fun htaken => ?_, Cascades.taken⟩)
    by_cases hchain : r.chain = name
    · by_cases hwrap : r.wrap = wrap
      · exact Or.inl ⟨hchain, hwrap⟩
      · exact Or.inr (hkind r hr hchain hwrap)
    · exact Or.inr (htext r hr hchain (htaken.resolve_left hchain))

/-- What the next `apply` lists, when the table is as it should be. -/
theorem unlisted_iff (hmem : getChainName name false ∈ ManagedTable.selectChainSet t.toIptablesTable false)
    (ht' : t' = t.removeChain commentIptablesRules wrapName name false)
    (htable : t'.toIptablesTable = cascade wrapName (getChainName name false) false t.toIptablesTable) :
    Unlisted wrapName (getChainName name false) false commentIptablesRules t.toIptablesTable
        (modifyRules commentIptablesRules wrapName t' currentLines).1 ↔
      ∀ line ∈ declared wrapName commentIptablesRules (cascade wrapName (getChainName name false) false t.toIptablesTable)
        currentLines, ':' :: (getChainName name false ++ [' ']) <+: line → line.drop 1 ∈ t.removeChains := by
  obtain ⟨hchains, hrules⟩ := removeChain_slated hmem ht'
  constructor
  · intro h line hline hpre
    by_contra hnot
    obtain ⟨rest, hrest⟩ := hpre
    refine h.chain line (mem_modifyRules.mpr ⟨?_, ?_⟩) (Or.inr ⟨rest, hrest⟩)
    · rw [mem_merged, htable]
      exact (mem_append.mp hline).imp id Or.inl
    · rintro (⟨-, hslated⟩ | ⟨hhead, -⟩)
      · rcases (hchains _).mp hslated with hslated | heq
        · exact hnot hslated
        · have hlen := congrArg List.length heq
          rw [← hrest, cons_append, drop_one, tail_cons, length_append, length_append,
            length_singleton] at hlen
          omega
      · exact hhead (by rw [← hrest]; rfl)
  · intro h
    refine ⟨fun line hline hdecl => ?_, fun r hr hcascades hlisted => ?_⟩
    · obtain ⟨hmerged, hslated⟩ := mem_modifyRules.mp hline
      rcases hdecl with rfl | hpre
      · exact hslated (Or.inl ⟨rfl, (hchains _).mpr (Or.inr rfl)⟩)
      · have hmem : line ∈ declared wrapName commentIptablesRules
            (cascade wrapName (getChainName name false) false t.toIptablesTable) currentLines := by
          rw [mem_merged, htable] at hmerged
          rcases hmerged with hkept | hours | ⟨r, -, rfl⟩
          · exact mem_append_left _ hkept
          · exact mem_append_right _ hours
          · obtain ⟨rest, hrest⟩ := hpre
            have hhead := text_head commentIptablesRules wrapName r
            rw [← hrest] at hhead
            exact absurd hhead (by simp)
        have hthere := h line hmem hpre
        obtain ⟨rest, hrest⟩ := hpre
        exact hslated (Or.inl ⟨by rw [← hrest]; rfl, (hchains _).mpr (Or.inl hthere)⟩)
    · refine (mem_modifyRules.mp hlisted).2 (Or.inr ⟨?_, hrules r hr hcascades.taken⟩)
      rw [text_head]
      decide

/-- **When the removal of a chain is exact**, after any calls and for any listing. -/
theorem removeChain_exact_iff (commentIptablesRules : Bool) (wrapName : Line) (cs : List ManagedTable.Call) (name : Line)
    (wrap : Bool) (currentLines : List Line) :
    RemovedExactly wrapName (getChainName name wrap) wrap commentIptablesRules
        (ManagedTable.calls commentIptablesRules wrapName cs)
        ((ManagedTable.calls commentIptablesRules wrapName cs).removeChain commentIptablesRules wrapName name wrap) currentLines ↔
      (getChainName name wrap ∈ ManagedTable.selectChainSet (ManagedTable.calls commentIptablesRules wrapName cs).toIptablesTable wrap →
        Clear wrapName (getChainName name wrap) wrap commentIptablesRules
          (ManagedTable.calls commentIptablesRules wrapName cs) currentLines) := by
  obtain ⟨t, ht⟩ : ∃ t, t = ManagedTable.calls commentIptablesRules wrapName cs := ⟨_, rfl⟩
  rw [← ht, RemovedExactly]
  by_cases hmem : getChainName name wrap ∈ ManagedTable.selectChainSet t.toIptablesTable wrap
  · rw [if_pos hmem, imp_iff_right hmem]
    have htable : (t.removeChain commentIptablesRules wrapName name wrap).toIptablesTable =
        cascade wrapName (getChainName name wrap) wrap t.toIptablesTable ↔
        t.rules.filter (fun r => ¬ Taken wrapName (getChainName name wrap) wrap r) =
          t.rules.filter fun r => ¬ Cascades wrapName (getChainName name wrap) wrap r := by
      rw [removeChain_table hmem, cascade, IptablesTable.mk.injEq]
      exact and_iff_left ⟨rfl, rfl⟩
    constructor
    · rintro ⟨hcascade, hlisted⟩
      obtain ⟨hkind, htext⟩ := filter_taken_iff.mp (htable.mp hcascade)
      refine ⟨hkind, htext, fun hwrap => ?_⟩
      subst hwrap
      exact (unlisted_iff hmem rfl hcascade).mp (hlisted rfl)
    · intro h
      have hcascade := htable.mpr (filter_taken_iff.mpr ⟨h.otherKind, h.text⟩)
      refine ⟨hcascade, fun hwrap => ?_⟩
      subst hwrap
      exact (unlisted_iff hmem rfl hcascade).mpr (h.bare rfl)
  · rw [if_neg hmem]
    refine iff_of_true ?_ fun h => absurd h hmem
    unfold ManagedTable.removeChain
    dsimp only
    rw [if_pos hmem]

/-- The jump to `ab` has the text of a jump to `a`. -/
theorem removeChain_longer_name :
    ¬ RemovedExactly "neutron".toList "a".toList true false
        (ManagedTable.calls false "neutron".toList [.addChain "a".toList true, .addChain "ab".toList true,
          .addChain "x".toList true, .addRule "x".toList "-j $ab".toList true false none])
        ((ManagedTable.calls false "neutron".toList [.addChain "a".toList true, .addChain "ab".toList true,
          .addChain "x".toList true, .addRule "x".toList "-j $ab".toList true false none]).removeChain false
            "neutron".toList "a".toList true) [] := by
  rw [RemovedExactly, if_pos (by decide)]
  exact fun h => absurd h.1 (by decide)

end Removal

end Mitaka.Neutron.Firewall
