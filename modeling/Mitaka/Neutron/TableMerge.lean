/-
  Subject: neutron/agent/linux/iptables_manager.py: a table with what is slated for removal,
           its operations, and `_modify_rules`, which merges it into a listing.

  The merged lines are weeded from the last to the first. **What is left are the lines that
  are not slated** (`mem_modifyRules`): a line that comes again is dropped before it is
  compared with what is slated, so that it does not matter that a removal is used up.
-/
import Mitaka.Neutron.FirewallTables
import Mitaka.Swift.ContentType

namespace Mitaka.Neutron.Firewall

open List

/-! ## 1. Tables -/

/-- `IptablesTable`, with what the next `apply` has to remove. -/
structure ManagedTable extends IptablesTable where
  removeRules : List Line
  removeChains : List Line
  deriving DecidableEq

/-- The name under which iptables knows a chain. -/
def fullName (wrapName name : Line) (wrap : Bool) : Line := if wrap then wrapName ++ '-' :: name else name

/-- `IptablesRule.__str__`. -/
def IptablesRule.text (commentIptablesRules : Bool) (wrapName : Line) (r : IptablesRule) : Line :=
  commentRule commentIptablesRules ("-A ".toList ++ (fullName wrapName r.chain r.wrap ++ ' ' :: r.rule)) (r.comment.getD [])

namespace ManagedTable

variable (commentIptablesRules : Bool) (wrapName : Line)

def empty : ManagedTable := { IptablesTable.empty with removeRules := [], removeChains := [] }

/-- `_select_chain_set`. -/
def selectChainSet (t : IptablesTable) (wrap : Bool) : List Line := if wrap then t.chains else t.unwrappedChains

/-- `add_chain`. -/
def addChain (t : ManagedTable) (name : Line) (wrap : Bool) : ManagedTable :=
  { t with toIptablesTable := t.toIptablesTable.addChain name wrap }

/-- `add_rule`. -/
def addRule (t : ManagedTable) (chain rule : Line) (wrap top : Bool) (comment : Option Line) : Except Error ManagedTable :=
  (t.toIptablesTable.addRule wrapName chain rule wrap top comment).map fun u => { t with toIptablesTable := u }

/-- `remove_rule`; a rule that is not there is only logged. -/
def removeRule (t : ManagedTable) (chain rule : Line) (wrap top : Bool) (comment : Option Line) : ManagedTable :=
  let r := IptablesTable.makeRule wrapName chain rule wrap top comment
  if t.rules.any (·.same r) then
    { t with
      rules := t.rules.eraseP (·.same r)
      removeRules := if wrap then t.removeRules else t.removeRules ++ [r.text commentIptablesRules wrapName] }
  else t

/-- `empty_chain`. -/
def emptyChain (t : ManagedTable) (chain : Line) (wrap : Bool) : ManagedTable :=
  let chainedRules := t.rules.filter fun r => r.chain = getChainName chain wrap ∧ r.wrap = wrap
  { t with rules := chainedRules.foldl (fun rules r => rules.eraseP (·.same r)) t.rules }

/-- What `remove_chain` looks for in the rules of the other chains. -/
def snippet (name : Line) (wrap : Bool) : Line := "-j ".toList ++ fullName wrapName name wrap

/-- `remove_chain`. -/
def removeChain (t : ManagedTable) (name : Line) (wrap : Bool) : ManagedTable :=
  let name := getChainName name wrap
  if name ∉ selectChainSet t.toIptablesTable wrap then t
  else
    let rules := t.rules.filter fun r => r.chain ≠ name
    { rules := rules.filter fun r => ¬ snippet wrapName name wrap <:+: r.rule
      chains := if wrap then t.chains.filter (· ≠ name) else t.chains
      unwrappedChains := if wrap then t.unwrappedChains else t.unwrappedChains.filter (· ≠ name)
      removeChains :=
        if wrap ∨ name ∈ t.removeChains then t.removeChains else t.removeChains ++ [name]
      removeRules :=
        if wrap then t.removeRules
        else
          t.removeRules ++ (t.rules.filter fun r => r.chain = name).map (·.text commentIptablesRules wrapName) ++
            (rules.filter fun r => snippet wrapName name wrap <:+: r.rule).map (·.text commentIptablesRules wrapName) }

/-- A call of a method of the table. -/
inductive Call
  | addChain (name : Line) (wrap : Bool)
  | addRule (chain rule : Line) (wrap top : Bool) (comment : Option Line)
  | removeRule (chain rule : Line) (wrap top : Bool) (comment : Option Line)
  | emptyChain (chain : Line) (wrap : Bool)
  | removeChain (name : Line) (wrap : Bool)

/-- One call; a rule for a chain that is not known leaves the table as it is. -/
def call (t : ManagedTable) : Call → ManagedTable
  | .addChain name wrap => t.addChain name wrap
  | .addRule chain rule wrap top comment =>
    match t.addRule wrapName chain rule wrap top comment with
    | .ok t' => t'
    | .error _ => t
  | .removeRule chain rule wrap top comment => t.removeRule commentIptablesRules wrapName chain rule wrap top comment
  | .emptyChain chain wrap => t.emptyChain chain wrap
  | .removeChain name wrap => t.removeChain commentIptablesRules wrapName name wrap

/-- A table after a row of calls. -/
def calls (cs : List Call) : ManagedTable := cs.foldl (call commentIptablesRules wrapName) empty

end ManagedTable

/-! ## 2. The merge -/

section Merge

variable (commentIptablesRules : Bool) (wrapName : Line)

/-- The lines of a listing that do not have the name of the wrap. -/
def foreignLines (currentLines : List Line) : List Line :=
  (currentLines.filter fun line => ¬ wrapName <:+: line).map Swift.strip

/-- `our_chains`: an unwrapped chain is left out when its declaration is somewhere in the listing. -/
def ourChains (t : IptablesTable) (newFilter : List Line) : List Line :=
  (sortedChains t.chains).map (fun name => ':' :: fullName wrapName name true) ++
    ((sortedChains t.unwrappedChains).filter fun name => ¬ newFilter.any fun s => ':' :: name <:+: s).map (':' :: ·)

/-- The lines in which no rule of the table is found. -/
def withoutRules (rules : List IptablesRule) (newFilter : List Line) : List Line :=
  rules.foldl (fun newFilter r => newFilter.filter fun s => ¬ r.text commentIptablesRules wrapName <:+: s) newFilter

/-- The loop of `_find_rules_index`: whether chains have been seen, and the index. -/
def findRulesIndexLoop (seenChains : Bool) (rulesIndex : ℕ) : List Line → ℕ → Bool × ℕ
  | [], _ => (seenChains, rulesIndex)
  | rule :: rest, i =>
    if seenChains = true ∧ rule.head? ≠ some ':' then (true, i)
    else findRulesIndexLoop (seenChains || rule.head? = some ':') i rest (i + 1)

/-- `_find_rules_index`. -/
def findRulesIndex (lines : List Line) : ℕ :=
  match findRulesIndexLoop false 0 lines 0 with
  | (true, rulesIndex) => rulesIndex
  | (false, _) => 2

/-- `_weed_out_duplicates` and `_weed_out_removes`, over all lines. -/
def weedOut : List Line → List Line → List Line → List Line → List Line
  | [], _, _, _ => []
  | line :: rest, seenLines, removeChains, removeRules =>
    if line ∈ seenLines then weedOut rest seenLines removeChains removeRules
    else
      if line.head? = some ':' then
        if line.drop 1 ∈ removeChains then weedOut rest (line :: seenLines) (removeChains.erase (line.drop 1)) removeRules
        else line :: weedOut rest (line :: seenLines) removeChains removeRules
      else
        if line ∈ removeRules then weedOut rest (line :: seenLines) removeChains (removeRules.erase line)
        else line :: weedOut rest (line :: seenLines) removeChains removeRules

/-- The lines before the weeding. -/
def merged (t : IptablesTable) (currentLines : List Line) : List Line :=
  let newFilter := foreignLines wrapName currentLines
  let ourChains := ourChains wrapName t newFilter
  let newFilter := withoutRules commentIptablesRules wrapName t.rules newFilter
  let ourTopRules := (t.rules.filter fun r => r.top).map (·.text commentIptablesRules wrapName)
  let ourBottomRules := (t.rules.filter fun r => !r.top).map (·.text commentIptablesRules wrapName)
  let rulesIndex := findRulesIndex newFilter
  newFilter.take rulesIndex ++ (ourChains ++ ourTopRules ++ ourBottomRules) ++ newFilter.drop rulesIndex

/-- `_modify_rules`, with the table it leaves. -/
def modifyRules (t : ManagedTable) (currentLines : List Line) : List Line × ManagedTable :=
  ((weedOut (merged commentIptablesRules wrapName t.toIptablesTable currentLines).reverse [] t.removeChains t.removeRules).reverse,
    { t with removeRules := [], removeChains := [] })

end Merge

/-! ## 3. What is left -/

/-- A line is slated for removal. -/
def Slated (removeChains removeRules : List Line) (line : Line) : Prop :=
  (line.head? = some ':' ∧ line.drop 1 ∈ removeChains) ∨ (line.head? ≠ some ':' ∧ line ∈ removeRules)

theorem mem_weedOut {lines seenLines removeChains removeRules : List Line} {x : Line} :
    x ∈ weedOut lines seenLines removeChains removeRules ↔
      x ∈ lines ∧ x ∉ seenLines ∧ ¬ Slated removeChains removeRules x := by
  induction lines generalizing seenLines removeChains removeRules with
  | nil => simp [weedOut]
  | cons line rest ih =>
    -- what the removal of another line uses up does not matter
    have hother : ∀ rc rr, (x ≠ line → (Slated rc rr x ↔ Slated removeChains removeRules x)) →
        (x ∈ weedOut rest (line :: seenLines) rc rr ↔
          x ≠ line ∧ x ∈ rest ∧ x ∉ seenLines ∧ ¬ Slated removeChains removeRules x) := fun rc rr h => by
      rw [ih, mem_cons, not_or]
      constructor
      · rintro ⟨hrest, ⟨hne, hseen⟩, hslated⟩
        exact ⟨hne, hrest, hseen, fun hs => hslated ((h hne).mpr hs)⟩
      · rintro ⟨hne, hrest, hseen, hslated⟩
        exact ⟨hrest, ⟨hne, hseen⟩, fun hs => hslated ((h hne).mp hs)⟩
    have hkept : line ∉ seenLines → ¬ Slated removeChains removeRules line →
        (x ∈ line :: weedOut rest (line :: seenLines) removeChains removeRules ↔
          x ∈ line :: rest ∧ x ∉ seenLines ∧ ¬ Slated removeChains removeRules x) := fun hseen hslated => by
      rw [mem_cons, hother _ _ fun _ => Iff.rfl, mem_cons]
      by_cases hx : x = line
      · rw [hx]
        tauto
      · tauto
    have hgone : line ∈ seenLines ∨ Slated removeChains removeRules line →
        ((x ≠ line ∧ x ∈ rest ∧ x ∉ seenLines ∧ ¬ Slated removeChains removeRules x) ↔
          x ∈ line :: rest ∧ x ∉ seenLines ∧ ¬ Slated removeChains removeRules x) := fun h => by
      rw [mem_cons]
      by_cases hx : x = line
      · rw [hx]
        tauto
      · tauto
    rw [weedOut]
    by_cases hseen : line ∈ seenLines
    · rw [if_pos hseen, ← hgone (Or.inl hseen), ih]
      constructor
      · rintro ⟨hrest, hx, hslated⟩
        exact ⟨fun he => hx (he ▸ hseen), hrest, hx, hslated⟩
      · exact fun h => h.2
    rw [if_neg hseen]
    by_cases hchain : line.head? = some ':'
    · rw [if_pos hchain]
      by_cases hmem : line.drop 1 ∈ removeChains
      · rw [if_pos hmem, ← hgone (Or.inr (Or.inl ⟨hchain, hmem⟩))]
        refine hother _ _ fun hne => or_congr (and_congr_right fun hx => mem_erase_of_ne fun he => hne ?_) Iff.rfl
        obtain ⟨s, rfl⟩ : ∃ s, x = ':' :: s := head?_eq_some_iff.mp hx
        obtain ⟨s', rfl⟩ : ∃ s', line = ':' :: s' := head?_eq_some_iff.mp hchain
        exact congrArg _ he
      · rw [if_neg hmem]
        exact hkept hseen fun h => h.elim (fun h => hmem h.2) fun h => h.1 hchain
    · rw [if_neg hchain]
      by_cases hmem : line ∈ removeRules
      · rw [if_pos hmem, ← hgone (Or.inr (Or.inr ⟨hchain, hmem⟩))]
        exact hother _ _ fun hne => or_congr Iff.rfl (and_congr_right fun _ => mem_erase_of_ne hne)
      · rw [if_neg hmem]
        exact hkept hseen fun h => h.elim (fun h => hchain h.1) fun h => hmem h.2

section Merged

variable {commentIptablesRules : Bool} {wrapName : Line} {t : IptablesTable} {currentLines : List Line} {x : Line}

theorem mem_merged : x ∈ merged commentIptablesRules wrapName t currentLines ↔
    x ∈ withoutRules commentIptablesRules wrapName t.rules (foreignLines wrapName currentLines) ∨
      x ∈ ourChains wrapName t (foreignLines wrapName currentLines) ∨
        ∃ r ∈ t.rules, r.text commentIptablesRules wrapName = x := by
  obtain ⟨newFilter, hnew⟩ : ∃ l, l = withoutRules commentIptablesRules wrapName t.rules (foreignLines wrapName currentLines) :=
    ⟨_, rfl⟩
  have hfilter : x ∈ newFilter ↔ x ∈ newFilter.take (findRulesIndex newFilter) ∨ x ∈ newFilter.drop (findRulesIndex newFilter) := by
    rw [← mem_append, take_append_drop]
  have hrules : (∃ r ∈ t.rules, r.text commentIptablesRules wrapName = x) ↔
      x ∈ (t.rules.filter fun r => r.top).map (·.text commentIptablesRules wrapName) ∨
        x ∈ (t.rules.filter fun r => !r.top).map (·.text commentIptablesRules wrapName) := by
    simp only [mem_map, mem_filter, Bool.not_eq_true']
    constructor
    · rintro ⟨r, hr, htext⟩
      cases htop : r.top
      · exact Or.inr ⟨r, ⟨hr, htop⟩, htext⟩
      · exact Or.inl ⟨r, ⟨hr, htop⟩, htext⟩
    · rintro (⟨r, hr, htext⟩ | ⟨r, hr, htext⟩)
      · exact ⟨r, hr.1, htext⟩
      · exact ⟨r, hr.1, htext⟩
  unfold merged
  dsimp only
  rw [← hnew, hfilter, hrules]
  simp only [mem_append]
  tauto

theorem mem_modifyRules {t : ManagedTable} : x ∈ (modifyRules commentIptablesRules wrapName t currentLines).1 ↔
    x ∈ merged commentIptablesRules wrapName t.toIptablesTable currentLines ∧ ¬ Slated t.removeChains t.removeRules x := by
  rw [modifyRules, mem_reverse, mem_weedOut, mem_reverse]
  simp

end Merged

end Mitaka.Neutron.Firewall
