/-
  Subject: neutron/agent/linux/iptables_manager.py: the rules and chains a table holds in
           memory, and what is left of them when chains are removed.

  Removing a chain drops its rules and, by a search for `-j <wrapped name>` in the text, the
  rules that jump to it, so a short name takes the rules of every chain it is a prefix of.
  The names of the ports fill the eleven characters a chain may have, and then no rule a
  driver starts with is hit (`not_kills_initial`).
-/
import Mitaka.Neutron.Iptables

namespace Mitaka.Neutron.Firewall

open List

/-! ## 1. Rules and tables -/

/-- `get_binary_name`: the base name of the program, cut at sixteen characters, without blanks. -/
def getBinaryName (baseName : Line) : Line := (baseName.take 16).map fun c => if c = ' ' then '_' else c

/-- `comment_rule`, with the option `comment_iptables_rules`. -/
def commentRule (commentIptablesRules : Bool) (rule comment : Line) : Line :=
  if ¬ commentIptablesRules ∨ comment = [] then rule
  else
    let comment := "-m comment --comment \"".toList ++ comment ++ "\"".toList
    if "-j".toList.isPrefixOf rule then comment ++ ' ' :: rule
    else
      -- `rule.index(' -j ')`: the shortest part before a jump
      match (List.range rule.length).find? fun i => " -j ".toList.isPrefixOf (rule.drop i) with
      | some jpos => rule.take jpos ++ ' ' :: (comment ++ ' ' :: rule.drop (jpos + 1))
      | none => rule ++ ' ' :: comment

/-- `get_chain_name`. -/
def getChainName (chainName : Line) (wrap : Bool) : Line := chainName.take (if wrap then 11 else 28)

/-- `IptablesRule`, without the name it wraps with and the tag, which are the same for all. -/
structure IptablesRule where
  chain : Line
  rule : Line
  wrap : Bool
  top : Bool
  comment : Option Line
  deriving DecidableEq

/-- `IptablesRule.__eq__`: the comment does not count. -/
def IptablesRule.same (self other : IptablesRule) : Bool :=
  self.chain = other.chain ∧ self.rule = other.rule ∧ self.top = other.top ∧ self.wrap = other.wrap

/-- `IptablesTable`; the sets of chains are lists that keep the order of the additions. What is noted for `apply` when
an unwrapped chain or rule goes is left out, since the firewall removes wrapped ones only. -/
structure IptablesTable where
  rules : List IptablesRule
  chains : List Line
  unwrappedChains : List Line
  deriving DecidableEq

/-- `LookupError('Unknown chain')` and `CTZoneExhaustedError`. -/
inductive Error
  | unknownChain (chain : Line)
  | ctZoneExhausted
  deriving DecidableEq

namespace IptablesTable

variable (wrapName : Line)

def empty : IptablesTable := { rules := [], chains := [], unwrappedChains := [] }

/-- `add_chain`. -/
def addChain (t : IptablesTable) (name : Line) (wrap : Bool) : IptablesTable :=
  let name := getChainName name wrap
  if wrap then { t with chains := if name ∈ t.chains then t.chains else t.chains ++ [name] }
  else
    { t with
      unwrappedChains := if name ∈ t.unwrappedChains then t.unwrappedChains else t.unwrappedChains ++ [name] }

/-- `_wrap_target_chain`. -/
def wrapTargetChain (wrap : Bool) : Line → Line
  | '$' :: s => wrapName ++ '-' :: getChainName s wrap
  | s => s

/-- `' '.join(self._wrap_target_chain(e, wrap) for e in rule.split(' '))`. -/
def wrapWords (wrap : Bool) (rule : Line) : Line :=
  intercalate [' '] ((rule.splitOn ' ').map (wrapTargetChain wrapName wrap))

/-- The text of a rule as `add_rule` and `remove_rule` make it. -/
def wrapRule (wrap : Bool) (rule : Line) : Line := if '$' ∈ rule then wrapWords wrapName wrap rule else rule

/-- The rule `add_rule` appends. -/
def makeRule (chain rule : Line) (wrap top : Bool) (comment : Option Line) : IptablesRule :=
  { chain := getChainName chain wrap, rule := wrapRule wrapName wrap rule, wrap := wrap, top := top, comment := comment }

/-- `add_rule`. -/
def addRule (t : IptablesTable) (chain rule : Line) (wrap top : Bool) (comment : Option Line) :
    Except Error IptablesTable :=
  if wrap = true ∧ getChainName chain wrap ∉ t.chains then .error (.unknownChain (getChainName chain wrap))
  else .ok { t with rules := t.rules ++ [makeRule wrapName chain rule wrap top comment] }

/-- `remove_rule` of a wrapped rule; a rule that is not there is only logged. -/
def removeRule (t : IptablesTable) (chain rule : Line) : IptablesTable :=
  { t with rules := t.rules.eraseP (·.same (makeRule wrapName chain rule true false none)) }

/-- What `remove_chain` looks for in the text of a rule. -/
def jumpSnippet (name : Line) : Line := "-j ".toList ++ (wrapName ++ '-' :: name)

/-- A rule that goes with the chain `name`. -/
def Kills (name : Line) (r : IptablesRule) : Prop := r.chain = name ∨ jumpSnippet wrapName name <:+: r.rule

instance (name : Line) (r : IptablesRule) : Decidable (Kills wrapName name r) :=
  inferInstanceAs (Decidable (_ ∨ _))

/-- `remove_chain` of a wrapped chain. -/
def removeChain (t : IptablesTable) (name : Line) : IptablesTable :=
  let name := getChainName name true
  if name ∉ t.chains then t
  else
    let rules := t.rules.filter (·.chain ≠ name)
    { t with
      chains := t.chains.filter (· ≠ name)
      rules := rules.filter fun r => ¬ jumpSnippet wrapName name <:+: r.rule }

end IptablesTable

open IptablesTable

theorem intercalate_append {sep : Line} {a b : List Line} (ha : a ≠ []) (hb : b ≠ []) :
    intercalate sep (a ++ b) = intercalate sep a ++ (sep ++ intercalate sep b) := by
  induction a with
  | nil => exact absurd rfl ha
  | cons x xs ih =>
    by_cases hxs : xs = []
    · subst hxs
      rw [singleton_append, intercalate_cons_of_ne_nil hb, intercalate_singleton, append_assoc]
    · rw [cons_append, intercalate_cons_of_ne_nil (by simp [hxs]), intercalate_cons_of_ne_nil hxs, ih hxs]
      simp only [append_assoc]

theorem wrapWords_append (wrapName : Line) (wrap : Bool) (a b : Line) :
    wrapWords wrapName wrap (a ++ ' ' :: b) = wrapWords wrapName wrap a ++ ' ' :: wrapWords wrapName wrap b := by
  have hne : ∀ s : Line, (s.splitOn ' ').map (wrapTargetChain wrapName wrap) ≠ [] := by
    intro s hs
    exact splitOn_ne_nil ' ' s (map_eq_nil_iff.mp hs)
  unfold wrapWords
  rw [splitOn_append_cons_self, map_append, intercalate_append (hne a) (hne b)]
  rfl

theorem wrapWords_of_not_mem (wrapName : Line) (wrap : Bool) {s : Line} (h : ' ' ∉ s) :
    wrapWords wrapName wrap s = wrapTargetChain wrapName wrap s := by
  rw [wrapWords, splitOn_eq_singleton h, map_singleton, intercalate_singleton]

/-- A rule that ends in a jump to a wrapped chain. -/
theorem wrapRule_jump (wrapName : Line) (wrap : Bool) (a : Line) {name : Line} (h : ' ' ∉ name) :
    wrapRule wrapName wrap (a ++ ' ' :: '$' :: name) =
      wrapWords wrapName wrap a ++ ' ' :: (wrapName ++ '-' :: getChainName name wrap) := by
  have hsp : ' ' ∉ '$' :: name := by simp [h]
  rw [wrapRule, if_pos (by simp), wrapWords_append, wrapWords_of_not_mem wrapName wrap hsp]
  rfl

/-! ## 2. The tables at the start -/

section Initial

variable (wrapName : Line)

/-- The filter table of either family after `IptablesManager.__init__` and `_add_fallback_chain_v4v6`. -/
def initialFilter : Except Error IptablesTable := do
  let t := empty.addChain "neutron-filter-top".toList false
  let t ← t.addRule wrapName "FORWARD".toList "-j neutron-filter-top".toList false true none
  let t ← t.addRule wrapName "OUTPUT".toList "-j neutron-filter-top".toList false true none
  let t := t.addChain "local".toList true
  let t ← t.addRule wrapName "neutron-filter-top".toList "-j $local".toList false false none
  let t ← ["INPUT".toList, "OUTPUT".toList, "FORWARD".toList].foldlM (fun t chain =>
    (t.addChain chain true).addRule wrapName chain ("-j $".toList ++ chain) false false none) t
  let t := t.addChain "scope".toList true
  let t ← t.addRule wrapName "FORWARD".toList "-j $scope".toList true false none
  let t := t.addChain "sg-fallback".toList true
  t.addRule wrapName "sg-fallback".toList "-j DROP".toList true false
    (some "Default drop rule for unmatched traffic.".toList)

/-- The raw table of either family after `IptablesManager.__init__`. -/
def initialRaw : Except Error IptablesTable :=
  ["PREROUTING".toList, "OUTPUT".toList].foldlM (fun t chain =>
    (t.addChain chain true).addRule wrapName chain ("-j $".toList ++ chain) false false none) empty

/-- The rules of `initialFilter`, written out. -/
def startRules : List IptablesRule :=
  let rule (chain text : String) (wrap top : Bool) : IptablesRule := ⟨chain.toList, text.toList, wrap, top, none⟩
  let jump (chain target : String) (wrap : Bool) : IptablesRule :=
    ⟨chain.toList, "-j ".toList ++ (wrapName ++ '-' :: target.toList), wrap, false, none⟩
  [rule "FORWARD" "-j neutron-filter-top" false true, rule "OUTPUT" "-j neutron-filter-top" false true,
    jump "neutron-filter-top" "local" false, jump "INPUT" "INPUT" false, jump "OUTPUT" "OUTPUT" false,
    jump "FORWARD" "FORWARD" false, jump "FORWARD" "scope" true,
    ⟨"sg-fallback".toList, "-j DROP".toList, true, false, some "Default drop rule for unmatched traffic.".toList⟩]

/-- The chains of `initialFilter`. -/
def startChains : List Line :=
  ["local".toList, "INPUT".toList, "OUTPUT".toList, "FORWARD".toList, "scope".toList, "sg-fallback".toList]

theorem initialFilter_eq :
    initialFilter wrapName = .ok ⟨startRules wrapName, startChains, ["neutron-filter-top".toList]⟩ := by
  have hjump (wrap : Bool) (name : Line) (h : ' ' ∉ name) :
      wrapRule wrapName wrap ("-j $".toList ++ name) = "-j ".toList ++ (wrapName ++ '-' :: getChainName name wrap) :=
    wrapRule_jump wrapName wrap "-j".toList h
  have hform : initialFilter wrapName = .ok
      ⟨[⟨"FORWARD".toList, "-j neutron-filter-top".toList, false, true, none⟩,
        ⟨"OUTPUT".toList, "-j neutron-filter-top".toList, false, true, none⟩,
        ⟨"neutron-filter-top".toList, wrapRule wrapName false ("-j $".toList ++ "local".toList), false, false, none⟩,
        ⟨"INPUT".toList, wrapRule wrapName false ("-j $".toList ++ "INPUT".toList), false, false, none⟩,
        ⟨"OUTPUT".toList, wrapRule wrapName false ("-j $".toList ++ "OUTPUT".toList), false, false, none⟩,
        ⟨"FORWARD".toList, wrapRule wrapName false ("-j $".toList ++ "FORWARD".toList), false, false, none⟩,
        ⟨"FORWARD".toList, wrapRule wrapName true ("-j $".toList ++ "scope".toList), true, false, none⟩,
        ⟨"sg-fallback".toList, "-j DROP".toList, true, false,
          some "Default drop rule for unmatched traffic.".toList⟩],
        startChains, ["neutron-filter-top".toList]⟩ := rfl
  rw [hform, hjump, hjump, hjump, hjump, hjump]
  · rfl
  all_goals decide

/-- The rules of `initialRaw`. -/
def startRaw : List IptablesRule :=
  [⟨"PREROUTING".toList, "-j ".toList ++ (wrapName ++ '-' :: "PREROUTING".toList), false, false, none⟩,
    ⟨"OUTPUT".toList, "-j ".toList ++ (wrapName ++ '-' :: "OUTPUT".toList), false, false, none⟩]

theorem initialRaw_eq :
    initialRaw wrapName = .ok ⟨startRaw wrapName, ["PREROUTING".toList, "OUTPUT".toList], []⟩ := by
  have hjump (name : Line) (h : ' ' ∉ name) :
      wrapRule wrapName false ("-j $".toList ++ name) = "-j ".toList ++ (wrapName ++ '-' :: getChainName name false) :=
    wrapRule_jump wrapName false "-j".toList h
  have hform : initialRaw wrapName = .ok
      ⟨[⟨"PREROUTING".toList, wrapRule wrapName false ("-j $".toList ++ "PREROUTING".toList), false, false, none⟩,
        ⟨"OUTPUT".toList, wrapRule wrapName false ("-j $".toList ++ "OUTPUT".toList), false, false, none⟩],
        ["PREROUTING".toList, "OUTPUT".toList], []⟩ := rfl
  rw [hform, hjump, hjump]
  · rfl
  all_goals decide

end Initial

/-! ## 3. What removal leaves -/

section Removal

variable {wrapName : Line} {t : IptablesTable}

variable {name : Line}

theorem getChainName_of_le (h : name.length ≤ 11) : getChainName name true = name :=
  take_of_length_le h

theorem removeChain_eq (h : name.length ≤ 11) :
    removeChain wrapName t name =
      if name ∈ t.chains then
        { t with chains := t.chains.filter (· ≠ name), rules := t.rules.filter fun r => ¬ Kills wrapName name r }
      else t := by
  unfold removeChain
  rw [getChainName_of_le h]
  by_cases hmem : name ∈ t.chains
  · simp only [hmem, not_true_eq_false, if_false, if_true, List.filter_filter]
    congr 1
    exact filter_congr fun r _ => by simp [Kills, Bool.and_comm]
  · simp [hmem]

/-- What a row of removals leaves: the chains that are not named, and the rules that none of the named chains there
takes with it. -/
theorem foldl_removeChain (names : List Line) (hnames : ∀ name ∈ names, name.length ≤ 11) :
    names.foldl (removeChain wrapName) t =
      { t with
        chains := t.chains.filter (· ∉ names)
        rules := t.rules.filter fun r => ∀ name ∈ names, name ∈ t.chains → ¬ Kills wrapName name r } := by
  induction names generalizing t with
  | nil => simp
  | cons name names ih =>
    rw [foldl_cons, ih fun n hn => hnames n (mem_cons_of_mem _ hn),
      removeChain_eq (hnames name mem_cons_self)]
    by_cases hmem : name ∈ t.chains
    · simp only [hmem, if_true, List.filter_filter]
      congr 1
      · refine filter_congr fun r _ => ?_
        by_cases hk : Kills wrapName name r
        · simp [hk, hmem]
        · -- a name that comes twice was taken out the first time, and then killed nothing
          simp only [hk, not_false_eq_true, decide_true, Bool.and_true, decide_eq_decide, mem_cons,
            forall_eq_or_imp, hmem, forall_const, true_and, mem_filter, decide_eq_true_eq]
          constructor
          · intro h n hn hnt
            by_cases hnn : n = name
            · exact hnn ▸ hk
            · exact h n hn ⟨hnt, hnn⟩
          · exact fun h n hn hnt => h n hn hnt.1
      · exact filter_congr fun c _ => by simp [Bool.and_comm]
    · simp only [hmem, if_false]
      congr 1
      · exact filter_congr fun r _ => by simp [hmem]
      · refine filter_congr fun c hc => ?_
        have hne : c ≠ name := fun e => hmem (e ▸ hc)
        simp [hne]

/-- In a text with one jump a snippet of a jump is a prefix of the target. -/
theorem prefix_of_jump {a b : Line} (hb : ' ' ∉ b) (h : "-j ".toList ++ a <:+: "-j ".toList ++ b) : a <+: b := by
  obtain ⟨s, rest, e⟩ := h
  have hlit : "-j ".toList = ['-', 'j', ' '] := rfl
  rw [hlit] at e
  match s, e with
  | [], e => exact ⟨rest, by simpa using e⟩
  | [_], e => simp at e
  | [_, _], e => simp at e
  | _ :: _ :: _ :: s', e =>
    simp only [cons_append, nil_append, List.cons.injEq] at e
    exact absurd (e.2.2.2 ▸ by simp) hb

/-- A name whose removal hits nothing a driver starts with. -/
structure Removable (name : Line) : Prop where
  short : name.length ≤ 11
  long : 8 ≤ name.length
  notFallback : name ≠ "sg-fallback".toList
  notTop : ¬ name <+: "filter-top".toList

theorem not_jump_wrapped {name target : Line} (hW : ' ' ∉ wrapName) (htarget : ' ' ∉ target)
    (hlen : target.length < name.length) :
    ¬ jumpSnippet wrapName name <:+: "-j ".toList ++ (wrapName ++ '-' :: target) := by
  intro h
  have hp := prefix_of_jump (by simp [hW, htarget]) h
  have hle := hp.length_le
  simp only [length_append, length_cons] at hle
  omega

theorem not_jump_top (h : Removable name) :
    ¬ jumpSnippet wrapName name <:+: "-j neutron-filter-top".toList := by
  intro hinfix
  obtain ⟨rest, e⟩ := prefix_of_jump (b := "neutron-filter-top".toList) (by decide) hinfix
  -- the dash after the binary name is one of the two dashes of the chain
  have hdash : ∀ k < 18, ("neutron-filter-top".toList)[k]? = some '-' → k = 7 ∨ k = 14 := by decide
  have hlen := congrArg List.length e
  simp only [length_append, length_cons] at hlen
  have hlt : wrapName.length < 18 := by
    have : "neutron-filter-top".toList.length = 18 := by decide
    omega
  have hget : ("neutron-filter-top".toList)[wrapName.length]? = some '-' := by
    rw [← e]
    simp
  have hdrop : name ++ rest = ("neutron-filter-top".toList).drop (wrapName.length + 1) := by
    rw [← e]
    simp [drop_append]
  rcases hdash _ hlt hget with h7 | h14
  · rw [h7] at hdrop
    exact h.notTop ⟨rest, hdrop⟩
  · rw [h14] at hdrop
    have hl := congrArg List.length hdrop
    have h3 : (("neutron-filter-top".toList).drop (14 + 1)).length = 3 := by decide
    rw [h3, length_append] at hl
    have := h.long
    omega

theorem not_kills_initial (hW : ' ' ∉ wrapName) (h : Removable name) :
    ∀ r ∈ startRules wrapName, ¬ Kills wrapName name r := by
  have hlong := h.long
  have hchain (c : Line) (hc : c.length < 8 ∨ 11 < c.length) : c ≠ name := by
    rintro rfl
    have := h.short
    omega
  have hjump (target : Line) (hsp : ' ' ∉ target) (ht : target.length < 8) :
      ¬ jumpSnippet wrapName name <:+: "-j ".toList ++ (wrapName ++ '-' :: target) :=
    not_jump_wrapped hW hsp (by omega)
  have hdrop : ¬ jumpSnippet wrapName name <:+: "-j DROP".toList := by
    intro hinfix
    have hp := prefix_of_jump (b := "DROP".toList) (by decide) hinfix
    have hdash : '-' ∈ "DROP".toList := hp.subset (by simp)
    exact absurd hdash (by decide)
  intro r hr
  simp only [startRules, mem_cons, not_mem_nil, or_false] at hr
  rcases hr with rfl | rfl | rfl | rfl | rfl | rfl | rfl | rfl
  · exact not_or.mpr ⟨hchain _ (by decide), not_jump_top h⟩
  · exact not_or.mpr ⟨hchain _ (by decide), not_jump_top h⟩
  · exact not_or.mpr ⟨hchain "neutron-filter-top".toList (by decide), hjump "local".toList (by decide) (by decide)⟩
  · exact not_or.mpr ⟨hchain "INPUT".toList (by decide), hjump "INPUT".toList (by decide) (by decide)⟩
  · exact not_or.mpr ⟨hchain "OUTPUT".toList (by decide), hjump "OUTPUT".toList (by decide) (by decide)⟩
  · exact not_or.mpr ⟨hchain "FORWARD".toList (by decide), hjump "FORWARD".toList (by decide) (by decide)⟩
  · exact not_or.mpr ⟨hchain "FORWARD".toList (by decide), hjump "scope".toList (by decide) (by decide)⟩
  · exact not_or.mpr ⟨h.notFallback.symm, hdrop⟩

theorem Removable.not_mem_start (h : Removable name) : name ∉ startChains := by
  have hlong := h.long
  intro hmem
  simp only [startChains, mem_cons, not_mem_nil, or_false] at hmem
  rcases hmem with rfl | rfl | rfl | rfl | rfl | rfl
  · exact absurd hlong (by decide)
  · exact absurd hlong (by decide)
  · exact absurd hlong (by decide)
  · exact absurd hlong (by decide)
  · exact absurd hlong (by decide)
  · exact h.notFallback rfl

end Removal

end Mitaka.Neutron.Firewall
