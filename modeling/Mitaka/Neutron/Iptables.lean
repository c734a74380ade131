/-
  Subject: neutron/agent/linux/iptables_manager.py: the path from one listing of a table
           to another, and what iptables-restore makes of it.

  The running index of a chain is the number of lines of the new chain before the position
  in the edit script, plus one (`run_chainDiffLoop`). The chains of the new listing are
  there before the first rule and the chains of the old one until the last, so every jump
  has its target; at the end only chains of the new listing have rules, and those jump to
  chains of the new listing (`generatePathBetweenRules_exact`).
-/
import Mitaka.Lib.Dict

namespace Mitaka.Neutron

open List

/-! ## 1. The path -/

abbrev Line := List Char

/-- A line of `difflib.ndiff` without its two characters of prefix. -/
inductive DiffLine
  /-- `'? '`: where the characters of two lines differ -/
  | guide (line : Line)
  /-- `'- '` -/
  | removed (line : Line)
  /-- `'+ '` -/
  | added (line : Line)
  /-- `'  '` -/
  | common (line : Line)
  deriving DecidableEq

/-- A command for iptables-restore. -/
inductive Statement
  /-- `':%s - [0:0]' % chain` -/
  | declare (chain : Line)
  /-- `'-D %s %d' % (chain, index)` -/
  | delete (chain : Line) (index : ℕ)
  /-- `'-I %s %d %s' % (chain, index, rule)` -/
  | insert (chain : Line) (index : ℕ) (rule : Line)
  /-- `'-X %s' % chain` -/
  | axe (chain : Line)
  deriving DecidableEq

/-- `s.split(' ', 1)[0]`. -/
def splitHead (s : Line) : Line := s.takeWhile (· ≠ ' ')

/-- `s.split(' ', 1)[-1]`. -/
def splitLast (s : Line) : Line :=
  match s.dropWhile (· ≠ ' ') with
  | [] => s
  | _ :: rest => rest

/-- One line in `_get_rules_by_chain`. -/
def addLine (byChain : Dict Line (List Line)) : Line → Dict Line (List Line)
  | ':' :: line =>
    let chain := splitHead line
    if (byChain.get chain).isSome then byChain else byChain.set chain []
  | '-' :: 'A' :: line =>
    let chain := splitHead (line.drop 1)
    byChain.set chain ((byChain.get chain).getD [] ++ ['-' :: 'A' :: line])
  | _ => byChain

/-- `_get_rules_by_chain`. -/
def getRulesByChain (rules : List Line) : Dict Line (List Line) := rules.foldl addLine []

/-- The loop of `_generate_chain_diff_iptables_commands`. -/
def chainDiffLoop (chain : Line) : List DiffLine → ℕ → List Statement
  | [], _ => []
  | .guide _ :: rest, oldIndex => chainDiffLoop chain rest oldIndex
  | .removed _ :: rest, oldIndex => .delete chain oldIndex :: chainDiffLoop chain rest (oldIndex - 1 + 1)
  | .added line :: rest, oldIndex =>
    -- with the prefix of `ndiff` these are the characters from the fifth on
    let rule := splitLast (line.drop 3)
    .insert chain oldIndex rule :: chainDiffLoop chain rest (oldIndex + 1)
  | .common _ :: rest, oldIndex => chainDiffLoop chain rest (oldIndex + 1)

section Path

variable (ndiff : List Line → List Line → List DiffLine)

/-- `_generate_chain_diff_iptables_commands`. -/
def generateChainDiffIptablesCommands (chain : Line) (oldChainRules newChainRules : List Line) : List Statement :=
  chainDiffLoop chain (ndiff oldChainRules newChainRules) 1

/-- `sorted` of a set of chains. -/
def sortedChains (chains : List Line) : List Line := chains.dedup.insertionSort (· ≤ ·)

/-- `_generate_path_between_rules`. -/
def generatePathBetweenRules (oldRules newRules : List Line) : List Statement :=
  let oldByChain := getRulesByChain oldRules
  let newByChain := getRulesByChain newRules
  let oldChains := oldByChain.map Prod.fst
  let newChains := newByChain.map Prod.fst
  let chains := sortedChains (oldChains ++ newChains)
  let sgChains := chains.filter fun chain => "-sg-".toList <:+: chain
  let otherChains := chains.filter fun chain => ¬ "-sg-".toList <:+: chain
  (sortedChains (newChains.filter (· ∉ oldChains))).map .declare ++
    (otherChains ++ sgChains).flatMap (fun chain =>
      generateChainDiffIptablesCommands ndiff chain ((oldByChain.get chain).getD []) ((newByChain.get chain).getD [])) ++
    (sortedChains (oldChains.filter (· ∉ newChains))).map .axe

end Path

/-! ## 2. iptables-restore -/

/-- The rules of each chain. -/
abbrev Table := Dict Line (List Line)

section Restore

variable (target : Line → Option Line)

/-- One command of `iptables-restore --noflush`; `target` is the chain to which a rule jumps, and nothing for a
built-in target. -/
def exec (table : Table) : Statement → Option Table
  | .declare chain => if (table.get chain).isSome then none else some (table.set chain [])
  | .delete chain index =>
    match table.get chain with
    | none => none
    | some rules =>
      if 1 ≤ index ∧ index ≤ rules.length then some (table.set chain (rules.take (index - 1) ++ rules.drop index))
      else none
  | .insert chain index rule =>
    match table.get chain with
    | none => none
    | some rules =>
      if (1 ≤ index ∧ index ≤ rules.length + 1) ∧ ∀ c ∈ target rule, (table.get c).isSome = true then
        some (table.set chain (rules.take (index - 1) ++ rule :: rules.drop (index - 1)))
      else none
  | .axe chain =>
    if table.get chain = some [] ∧ ∀ e ∈ table, ∀ rule ∈ e.2, target rule ≠ some chain then some (table.erase chain)
    else none

/-- The commands in order; the first that fails stops the rest. -/
def run (table : Table) (statements : List Statement) : Option Table := statements.foldlM (exec target) table

end Restore

/-! ## 3. Listings -/

/-- A line of a listing. -/
inductive Entry
  /-- a declaration, with what stands behind the name -/
  | chain (name : Line) (rest : Option Line)
  | rule (chain rule : Line)

def Entry.text : Entry → Line
  | .chain name none => ':' :: name
  | .chain name (some rest) => ':' :: (name ++ ' ' :: rest)
  | .rule c r => '-' :: 'A' :: ' ' :: (c ++ ' ' :: r)

abbrev Listing := List Entry

namespace Listing

def lines (l : Listing) : List Line := l.map Entry.text

/-- The chains that are declared. -/
def chains (l : Listing) : List Line := l.filterMap fun
  | .chain name _ => some name
  | .rule _ _ => none

/-- The rules of a chain. -/
def rules (l : Listing) (c : Line) : List Line := l.filterMap fun
  | .chain _ _ => none
  | .rule chain rule => if chain = c then some rule else none

/-- The listing of a table: names without blanks, and no chain that is not declared. -/
structure WellFormed (target : Line → Option Line) (l : Listing) : Prop where
  name : ∀ e ∈ l, ∀ name rest, e = .chain name rest → ' ' ∉ name
  rule : ∀ e ∈ l, ∀ chain rule, e = .rule chain rule → ' ' ∉ chain ∧ rule ≠ [] ∧ chain ∈ l.chains
  jump : ∀ e ∈ l, ∀ chain rule, e = .rule chain rule → ∀ c ∈ target rule, c ∈ l.chains

/-- The table has the chains of the listing, each with its rules. -/
def Describes (l : Listing) (table : Table) : Prop :=
  Dict.KeysNodup table ∧ ∀ c, table.get c = if c ∈ l.chains then some (l.rules c) else none

end Listing

/-- The lines of the old sequence in an edit script. -/
def DiffLine.oldLine : DiffLine → Option Line
  | .removed line | .common line => some line
  | .added _ | .guide _ => none

/-- The lines of the new sequence in an edit script. -/
def DiffLine.newLine : DiffLine → Option Line
  | .added line | .common line => some line
  | .removed _ | .guide _ => none

/-- What `difflib.ndiff` promises. -/
structure IsNdiff (ndiff : List Line → List Line → List DiffLine) : Prop where
  old : ∀ a b, (ndiff a b).filterMap DiffLine.oldLine = a
  new : ∀ a b, (ndiff a b).filterMap DiffLine.newLine = b
  /-- equal sequences have no difference -/
  refl : ∀ a, ndiff a a = a.map .common

/-! ## 4. Reading a listing -/

theorem splitHead_append {name : Line} (h : ' ' ∉ name) (rest : Line) : splitHead (name ++ ' ' :: rest) = name := by
  rw [splitHead, takeWhile_append_of_pos fun c hc => by simpa using ne_of_mem_of_not_mem hc h]
  simp

theorem splitHead_self {name : Line} (h : ' ' ∉ name) : splitHead name = name :=
  takeWhile_eq_self_iff.mpr fun c hc => by simpa using ne_of_mem_of_not_mem hc h

theorem splitLast_append {name : Line} (h : ' ' ∉ name) (rest : Line) : splitLast (name ++ ' ' :: rest) = rest := by
  have hdrop : (name ++ ' ' :: rest).dropWhile (· ≠ ' ') = ' ' :: rest := by
    rw [dropWhile_append_of_pos fun c hc => by simpa using ne_of_mem_of_not_mem hc h]
    simp
  rw [splitLast, hdrop]

/-- What the code reads of a rule of a listing. -/
def ruleLine (chain rule : Line) : Line := (Entry.rule chain rule).text

theorem splitLast_ruleLine {chain : Line} (h : ' ' ∉ chain) (rule : Line) :
    splitLast ((ruleLine chain rule).drop 3) = rule := by
  rw [show (ruleLine chain rule).drop 3 = chain ++ ' ' :: rule from rfl, splitLast_append h]

theorem addLine_chain (d : Dict Line (List Line)) (line : Line) : addLine d (':' :: line) =
    if (d.get (splitHead line)).isSome then d else d.set (splitHead line) [] := rfl

theorem addLine_rule (d : Dict Line (List Line)) (line : Line) : addLine d ('-' :: 'A' :: ' ' :: line) =
    d.set (splitHead line) ((d.get (splitHead line)).getD [] ++ ['-' :: 'A' :: ' ' :: line]) := rfl

namespace Listing

variable {target : Line → Option Line} {l : Listing}

/-- **The chains and their lines.** -/
theorem getRulesByChain_spec (hname : ∀ e ∈ l, ∀ name rest, e = .chain name rest → ' ' ∉ name)
    (hrule : ∀ e ∈ l, ∀ chain rule, e = .rule chain rule → ' ' ∉ chain) :
    Dict.KeysNodup (getRulesByChain l.lines) ∧
      (∀ c, ((getRulesByChain l.lines).get c).isSome = true ↔ c ∈ l.chains ∨ l.rules c ≠ []) ∧
      ∀ c, ((getRulesByChain l.lines).get c).getD [] = (l.rules c).map (ruleLine c) := by
  induction l using reverseRecOn with
  | nil =>
    refine ⟨nodup_nil, fun c => ?_, fun c => rfl⟩
    exact ⟨nofun, fun h => h.elim nofun fun hne => absurd rfl hne⟩
  | append_singleton l e ih =>
    obtain ⟨hnodup, hsome, hget⟩ := ih (fun e he => hname e (mem_append_left _ he))
      (fun e he => hrule e (mem_append_left _ he))
    have hlines : getRulesByChain (lines (l ++ [e])) = addLine (getRulesByChain (lines l)) e.text := by
      rw [getRulesByChain, lines, map_append, foldl_append]
      rfl
    rw [hlines]
    generalize getRulesByChain (lines l) = d at hnodup hsome hget
    cases e with
    | chain name rest =>
      have hblank := hname _ (mem_append_right _ (mem_singleton_self _)) name rest rfl
      have hadd : addLine d (Entry.chain name rest).text = if (d.get name).isSome then d else d.set name [] := by
        cases rest with
        | none => rw [Entry.text, addLine_chain, splitHead_self hblank]
        | some rest => rw [Entry.text, addLine_chain, splitHead_append hblank]
      have hchains : chains (l ++ [.chain name rest]) = chains l ++ [name] := by
        rw [chains, filterMap_append]
        rfl
      have hrules : ∀ c, rules (l ++ [.chain name rest]) c = rules l c := fun c => by
        rw [rules, filterMap_append]
        exact append_nil _
      rw [hadd, hchains]
      simp only [hrules]
      by_cases hin : (d.get name).isSome = true
      · rw [if_pos hin]
        refine ⟨hnodup, fun c => ?_, hget⟩
        rw [hsome, mem_append, mem_singleton]
        constructor
        · exact fun h => h.imp_left Or.inl
        · rintro ((h | rfl) | h)
          · exact Or.inl h
          · exact (hsome c).mp hin
          · exact Or.inr h
      · rw [if_neg hin]
        have hnone : d.get name = none := Option.not_isSome_iff_eq_none.mp hin
        refine ⟨hnodup.set _ _, fun c => ?_, fun c => ?_⟩
        · rw [Dict.get_set, mem_append, mem_singleton]
          by_cases hc : name = c
          · rw [if_pos hc]
            exact iff_of_true rfl (Or.inl (Or.inr hc.symm))
          · rw [if_neg hc, hsome, or_iff_left (Ne.symm hc)]
        · rw [Dict.get_set]
          split
          case isTrue hc =>
            rw [← hget, ← hc, hnone]
            rfl
          case isFalse => exact hget c
    | rule chain rule =>
      have hblank := hrule _ (mem_append_right _ (mem_singleton_self _)) chain rule rfl
      have hadd : addLine d (Entry.rule chain rule).text =
          d.set chain ((d.get chain).getD [] ++ [ruleLine chain rule]) := by
        rw [Entry.text, addLine_rule, splitHead_append hblank]
        rfl
      have hchains : chains (l ++ [.rule chain rule]) = chains l := by
        rw [chains, filterMap_append]
        exact append_nil _
      have hrules : ∀ c, rules (l ++ [.rule chain rule]) c = rules l c ++ if chain = c then [rule] else [] := fun c => by
        rw [rules, filterMap_append]
        by_cases hc : chain = c
        · simp [hc, rules]
        · simp [hc, rules]
      rw [hadd, hchains]
      simp only [hrules]
      refine ⟨hnodup.set _ _, fun c => ?_, fun c => ?_⟩
      · rw [Dict.get_set]
        by_cases hc : chain = c
        · rw [if_pos hc, if_pos hc]
          exact iff_of_true rfl (Or.inr (append_ne_nil_of_right_ne_nil _ (cons_ne_nil _ _)))
        · rw [if_neg hc, if_neg hc, append_nil, hsome]
      · rw [Dict.get_set]
        by_cases hc : chain = c
        · rw [if_pos hc, if_pos hc, hc, hget, map_append]
          rfl
        · rw [if_neg hc, if_neg hc, append_nil, hget]

theorem WellFormed.byChain (h : l.WellFormed target) :
    Dict.KeysNodup (getRulesByChain l.lines) ∧
      (∀ c, ((getRulesByChain l.lines).get c).isSome = true ↔ c ∈ l.chains) ∧
      ∀ c, ((getRulesByChain l.lines).get c).getD [] = (l.rules c).map (ruleLine c) := by
  obtain ⟨hnodup, hsome, hget⟩ := getRulesByChain_spec h.name fun e he chain rule heq => (h.rule e he chain rule heq).1
  refine ⟨hnodup, fun c => (hsome c).trans (or_iff_left_of_imp fun hne => ?_), hget⟩
  obtain ⟨r, hr⟩ := exists_mem_of_ne_nil _ hne
  obtain ⟨e, he, hmatch⟩ := mem_filterMap.mp hr
  cases e with
  | chain name rest => cases hmatch
  | rule chain rule =>
    dsimp only at hmatch
    split at hmatch
    case isTrue heq =>
      rw [← heq]
      exact (h.rule _ he chain rule rfl).2.2
    case isFalse => cases hmatch

/-- What a rule of a chain jumps to is declared, and the name of the chain has no blank. -/
theorem WellFormed.mem_rules (h : l.WellFormed target) {c r : Line} (hr : r ∈ l.rules c) :
    ' ' ∉ c ∧ ∀ t ∈ target r, t ∈ l.chains := by
  obtain ⟨e, he, hmatch⟩ := mem_filterMap.mp hr
  cases e with
  | chain name rest => cases hmatch
  | rule chain rule =>
    dsimp only at hmatch
    split at hmatch
    case isTrue heq =>
      cases hmatch
      rw [← heq]
      exact ⟨(h.rule _ he chain _ rfl).1, h.jump _ he chain _ rfl⟩
    case isFalse => cases hmatch

end Listing

/-! ## 5. Running the path -/

section Run

variable {target : Line → Option Line}

theorem run_cons (table : Table) (st : Statement) (rest : List Statement) :
    run target table (st :: rest) = (exec target table st).bind fun t => run target t rest := foldlM_cons

theorem run_append {table t : Table} {a : List Statement} (h : run target table a = some t) (b : List Statement) :
    run target table (a ++ b) = run target t b := by
  rw [run, foldlM_append]
  exact (congrArg (Option.bind · fun t => run target t b) h).trans (Option.bind_some t _)

/-- **Running the edit script of a chain.** -/
theorem run_chainDiffLoop (target : Line → Option Line) (chain : Line) (script : List DiffLine) {table : Table} {done : List Line}
    (hnodup : Dict.KeysNodup table)
    (hget : table.get chain = some (done ++ (script.filterMap DiffLine.oldLine).map fun l => splitLast (l.drop 3)))
    (htarget : ∀ l ∈ script.filterMap DiffLine.newLine, ∀ c ∈ target (splitLast (l.drop 3)), (table.get c).isSome = true) :
    ∃ t, run target table (chainDiffLoop chain script (done.length + 1)) = some t ∧ Dict.KeysNodup t ∧
      ∀ c, t.get c = if chain = c then
          some (done ++ (script.filterMap DiffLine.newLine).map fun l => splitLast (l.drop 3))
        else table.get c := by
  induction script generalizing table done with
  | nil =>
    refine ⟨table, rfl, hnodup, fun c => ?_⟩
    split
    case isTrue hc => rw [← hc, hget]; rfl
    case isFalse => rfl
  | cons d script ih =>
    cases d with
    | guide line => exact ih hnodup hget htarget
    | common line =>
      have hlen : done.length + 1 = (done ++ [splitLast (line.drop 3)]).length := by rw [length_append]; rfl
      rw [chainDiffLoop, hlen]
      obtain ⟨t, hrun, ht, hchains⟩ := @ih table (done ++ [splitLast (line.drop 3)]) hnodup
        (by rw [hget, append_assoc]; rfl) fun l hl => htarget l (mem_cons_of_mem _ hl)
      refine ⟨t, hrun, ht, fun c => ?_⟩
      rw [hchains, append_assoc]
      rfl
    | removed line =>
      obtain ⟨rest, hrest⟩ : ∃ rest, rest = (script.filterMap DiffLine.oldLine).map fun l => splitLast (l.drop 3) := ⟨_, rfl⟩
      have hget : table.get chain = some (done ++ splitLast (line.drop 3) :: rest) := by rw [hget, hrest]; rfl
      have hexec : exec target table (.delete chain (done.length + 1)) = some (table.set chain (done ++ rest)) := by
        rw [exec, hget]
        dsimp only
        rw [if_pos ⟨Nat.succ_pos _, by rw [length_append, length_cons]; omega⟩, Nat.add_sub_cancel,
          take_left, drop_append, drop_eq_nil_of_le (Nat.le_succ _), Nat.add_sub_cancel_left]
        rfl
      have hkeep : ∀ c, (table.get c).isSome = true → ((table.set chain (done ++ rest)).get c).isSome = true := fun c hc => by
        rw [Dict.get_set]
        split
        · rfl
        · exact hc
      obtain ⟨t, hrun, ht, hchains⟩ := @ih (table.set chain (done ++ rest)) done (hnodup.set _ _)
        (by rw [Dict.get_set, if_pos rfl, hrest]) fun l hl c hc => hkeep c (htarget l hl c hc)
      refine ⟨t, ?_, ht, fun c => ?_⟩
      · rw [chainDiffLoop, run_cons, hexec, Nat.add_sub_cancel]
        exact hrun
      · rw [hchains, Dict.get_set]
        split
        · rfl
        · rfl
    | added line =>
      obtain ⟨rest, hrest⟩ : ∃ rest, rest = (script.filterMap DiffLine.oldLine).map fun l => splitLast (l.drop 3) := ⟨_, rfl⟩
      have hget : table.get chain = some (done ++ rest) := by rw [hget, hrest]; rfl
      have hexec : exec target table (.insert chain (done.length + 1) (splitLast (line.drop 3))) =
          some (table.set chain (done ++ splitLast (line.drop 3) :: rest)) := by
        rw [exec, hget]
        dsimp only
        rw [if_pos ⟨⟨Nat.succ_pos _, by rw [length_append]; omega⟩, htarget line mem_cons_self⟩,
          Nat.add_sub_cancel, take_left, drop_left]
      have hkeep : ∀ c, (table.get c).isSome = true →
          ((table.set chain (done ++ splitLast (line.drop 3) :: rest)).get c).isSome = true := fun c hc => by
        rw [Dict.get_set]
        split
        · rfl
        · exact hc
      have hlen : done.length + 1 = (done ++ [splitLast (line.drop 3)]).length := by rw [length_append]; rfl
      obtain ⟨t, hrun, ht, hchains⟩ := @ih (table.set chain (done ++ splitLast (line.drop 3) :: rest))
        (done ++ [splitLast (line.drop 3)]) (hnodup.set _ _)
        (by rw [Dict.get_set, if_pos rfl, hrest, append_assoc]; rfl)
        fun l hl c hc => hkeep c (htarget l (mem_cons_of_mem _ hl) c hc)
      refine ⟨t, ?_, ht, fun c => ?_⟩
      · rw [chainDiffLoop, run_cons, hexec]
        dsimp only [Option.bind_some]
        rw [hlen]
        exact hrun
      · rw [hchains, Dict.get_set, append_assoc]
        split
        · rfl
        · rfl

theorem mem_sortedChains {l : List Line} {c : Line} : c ∈ sortedChains l ↔ c ∈ l := by
  rw [sortedChains, mem_insertionSort, mem_dedup]

theorem sortedChains_nodup (l : List Line) : (sortedChains l).Nodup :=
  (perm_insertionSort _ _).nodup_iff.mpr (nodup_dedup l)

/-- **Declaring chains.** -/
theorem run_declare (target : Line → Option Line) (l : List Line) {table : Table} (hnodup : Dict.KeysNodup table) (hl : l.Nodup)
    (hnew : ∀ c ∈ l, table.get c = none) : ∃ t, run target table (l.map .declare) = some t ∧ Dict.KeysNodup t ∧
      ∀ c, t.get c = if c ∈ l then some [] else table.get c := by
  induction l generalizing table with
  | nil => exact ⟨table, rfl, hnodup, fun c => (if_neg not_mem_nil).symm⟩
  | cons chain l ih =>
    obtain ⟨hnot, hl⟩ := nodup_cons.mp hl
    have hexec : exec target table (.declare chain) = some (table.set chain []) := by
      rw [exec, hnew chain mem_cons_self]
      rfl
    obtain ⟨t, hrun, ht, hget⟩ := @ih (table.set chain []) (hnodup.set _ _) hl fun c hc => by
      rw [Dict.get_set, if_neg fun heq => hnot (by rw [heq]; exact hc)]
      exact hnew c (mem_cons_of_mem _ hc)
    refine ⟨t, ?_, ht, fun c => ?_⟩
    · rw [map_cons, run_cons, hexec]
      exact hrun
    · rw [hget, Dict.get_set]
      by_cases hc : c ∈ l
      · rw [if_pos hc, if_pos (mem_cons_of_mem _ hc)]
      · by_cases heq : chain = c
        · rw [if_neg hc, if_pos heq, if_pos (by rw [heq]; exact mem_cons_self)]
        · rw [if_neg hc, if_neg heq, if_neg fun hmem => (mem_cons.mp hmem).elim (fun h => heq h.symm) hc]

/-- **Editing chains.** -/
theorem run_diffs {ndiff : List Line → List Line → List DiffLine} (hndiff : IsNdiff ndiff)
    (oldLines newLines : Line → List Line) {old new : Line → List Line} (l : List Line) {table : Table} (hnodup : Dict.KeysNodup table) (hl : l.Nodup)
    (hold : ∀ c, (oldLines c).map (fun line => splitLast (line.drop 3)) = old c)
    (hnew : ∀ c, (newLines c).map (fun line => splitLast (line.drop 3)) = new c)
    (hget : ∀ c ∈ l, table.get c = some (old c))
    (htarget : ∀ c ∈ l, ∀ r ∈ new c, ∀ t ∈ target r, (table.get t).isSome = true) :
    ∃ t, run target table (l.flatMap fun c => generateChainDiffIptablesCommands ndiff c (oldLines c) (newLines c)) = some t ∧
      Dict.KeysNodup t ∧ ∀ c, t.get c = if c ∈ l then some (new c) else table.get c := by
  induction l generalizing table with
  | nil => exact ⟨table, rfl, hnodup, fun c => (if_neg not_mem_nil).symm⟩
  | cons chain l ih =>
    obtain ⟨hnot, hl⟩ := nodup_cons.mp hl
    obtain ⟨t, hrun, ht, hchain⟩ := @run_chainDiffLoop target chain
      (ndiff (oldLines chain) (newLines chain)) table [] hnodup
      (by rw [hndiff.old, nil_append, hold]; exact hget chain mem_cons_self)
      (by
        rw [hndiff.new]
        intro line hline
        refine htarget chain mem_cons_self _ ?_
        rw [← hnew]
        exact List.mem_map_of_mem hline)
    rw [hndiff.new, nil_append, hnew] at hchain
    have hkeep : ∀ c, (table.get c).isSome = true → (t.get c).isSome = true := fun c hc => by
      rw [hchain]
      split
      · rfl
      · exact hc
    obtain ⟨t', hrun', ht', hget'⟩ := ih ht hl
      (fun c hc => by
        rw [hchain, if_neg fun heq => hnot (by rw [heq]; exact hc)]
        exact hget c (mem_cons_of_mem _ hc))
      fun c hc r hr x hx => hkeep x (htarget c (mem_cons_of_mem _ hc) r hr x hx)
    refine ⟨t', ?_, ht', fun c => ?_⟩
    · rw [flatMap_cons]
      exact (run_append hrun _).trans hrun'
    · rw [hget', hchain]
      by_cases hc : c ∈ l
      · rw [if_pos hc, if_pos (mem_cons_of_mem _ hc)]
      · by_cases heq : chain = c
        · rw [if_neg hc, if_pos heq, if_pos (by rw [heq]; exact mem_cons_self), heq]
        · rw [if_neg hc, if_neg heq, if_neg fun hmem => (mem_cons.mp hmem).elim (fun h => heq h.symm) hc]

/-- **Deleting chains.** -/
theorem run_axe (l : List Line) {table : Table} (hnodup : Dict.KeysNodup table) (hl : l.Nodup)
    (hempty : ∀ c ∈ l, table.get c = some []) (hfree : ∀ e ∈ table, ∀ r ∈ e.2, ∀ c ∈ l, target r ≠ some c) :
    ∃ t, run target table (l.map .axe) = some t ∧ Dict.KeysNodup t ∧
      ∀ c, t.get c = if c ∈ l then none else table.get c := by
  induction l generalizing table with
  | nil => exact ⟨table, rfl, hnodup, fun c => (if_neg not_mem_nil).symm⟩
  | cons chain l ih =>
    obtain ⟨hnot, hl⟩ := nodup_cons.mp hl
    have hexec : exec target table (.axe chain) = some (table.erase chain) := by
      rw [exec, if_pos ⟨hempty chain mem_cons_self, fun e he r hr => hfree e he r hr chain mem_cons_self⟩]
    have hnodup' : Dict.KeysNodup (table.erase chain) := hnodup.sublist (filter_sublist.map Prod.fst)
    obtain ⟨t, hrun, ht, hget⟩ := ih hnodup' hl
      (fun c hc => by
        rw [Dict.get_erase, if_neg fun heq => hnot (by rw [heq]; exact hc)]
        exact hempty c (mem_cons_of_mem _ hc))
      fun e he r hr c hc => hfree e (mem_of_mem_filter he) r hr c (mem_cons_of_mem _ hc)
    refine ⟨t, ?_, ht, fun c => ?_⟩
    · rw [map_cons, run_cons, hexec]
      exact hrun
    · rw [hget, Dict.get_erase]
      by_cases hc : c ∈ l
      · rw [if_pos hc, if_pos (mem_cons_of_mem _ hc)]
      · by_cases heq : chain = c
        · rw [if_neg hc, if_pos heq, if_pos (by rw [heq]; exact mem_cons_self)]
        · rw [if_neg hc, if_neg heq, if_neg fun hmem => (mem_cons.mp hmem).elim (fun h => heq h.symm) hc]

end Run

/-! ## 6. The result -/

theorem Listing.WellFormed.map_splitLast {target : Line → Option Line} {l : Listing} (h : l.WellFormed target) (c : Line) :
    (((getRulesByChain l.lines).get c).getD []).map (fun line => splitLast (line.drop 3)) = l.rules c := by
  rw [h.byChain.2.2, List.map_map]
  refine (map_congr_left fun r hr => ?_).trans (List.map_id _)
  exact splitLast_ruleLine (h.mem_rules hr).1 r

theorem chainDiffLoop_common (chain : Line) (rules : List Line) (oldIndex : ℕ) :
    chainDiffLoop chain (rules.map .common) oldIndex = [] := by
  induction rules generalizing oldIndex with
  | nil => rfl
  | cons r rules ih => exact ih _

/-- Nothing to do for a listing and itself. -/
theorem generatePathBetweenRules_self {ndiff : List Line → List Line → List DiffLine} (hndiff : IsNdiff ndiff)
    (rules : List Line) : generatePathBetweenRules ndiff rules rules = [] := by
  have hnone : ∀ l : List Line, l.filter (· ∉ l) = [] := fun l =>
    filter_eq_nil_iff.mpr fun c hc hnot => absurd hc (of_decide_eq_true hnot)
  have hchain : ∀ c lines, generateChainDiffIptablesCommands ndiff c lines lines = [] := fun c lines => by
    rw [generateChainDiffIptablesCommands, hndiff.refl, chainDiffLoop_common]
  have hempty : sortedChains [] = [] := rfl
  rw [generatePathBetweenRules, hnone, hempty, map_nil, map_nil, nil_append, append_nil]
  simp only [hchain]
  exact flatMap_eq_nil_iff.mpr fun _ _ => rfl

/-- **The commands never fail and end with the chains and the rules of the new listing; none where it is the old one.** -/
theorem generatePathBetweenRules_exact {ndiff : List Line → List Line → List DiffLine} (hndiff : IsNdiff ndiff)
    {target : Line → Option Line} {old new : Listing} (hold : old.WellFormed target) (hnew : new.WellFormed target)
    {table : Table} (htable : old.Describes table) :
    (∃ t, run target table (generatePathBetweenRules ndiff old.lines new.lines) = some t ∧ new.Describes t) ∧
      (old = new → generatePathBetweenRules ndiff old.lines new.lines = []) := by
  refine ⟨?_, fun heq => by rw [heq]; exact generatePathBetweenRules_self hndiff _⟩
  obtain ⟨hnodup, hget⟩ := htable
  obtain ⟨-, holdMem, -⟩ := hold.byChain
  obtain ⟨-, hnewMem, -⟩ := hnew.byChain
  rw [generatePathBetweenRules]
  generalize hoc : (getRulesByChain old.lines).map Prod.fst = oldChains
  generalize hnc : (getRulesByChain new.lines).map Prod.fst = newChains
  have hoc : ∀ c, c ∈ oldChains ↔ c ∈ old.chains := fun c => by rw [← hoc, Dict.mem_keys_iff, holdMem]
  have hnc : ∀ c, c ∈ newChains ↔ c ∈ new.chains := fun c => by rw [← hnc, Dict.mem_keys_iff, hnewMem]
  have hno : ∀ {l : Listing}, l.WellFormed target → ∀ c, c ∉ l.chains → l.rules c = [] := fun {l} hl c hc => by
    by_contra hne
    obtain ⟨hnodup', hmem, hrules⟩ := hl.byChain
    have hnone := Option.not_isSome_iff_eq_none.mp fun h => hc ((hmem c).mp h)
    have heq := hrules c
    rw [hnone] at heq
    exact hne (map_eq_nil_iff.mp heq.symm)
  -- the new chains are declared
  obtain ⟨t₁, hrun₁, hnodup₁, hget₁⟩ := run_declare target (sortedChains (newChains.filter (· ∉ oldChains)))
    hnodup (sortedChains_nodup _) fun c hc => by
      have hnot := of_decide_eq_true (mem_filter.mp (mem_sortedChains.mp hc)).2
      rw [hget, if_neg fun hin => hnot ((hoc c).mpr hin)]
  have hget₁ : ∀ c, t₁.get c = if c ∈ old.chains ∨ c ∈ new.chains then some (old.rules c) else none := fun c => by
    rw [hget₁, hget]
    by_cases ho : c ∈ old.chains
    · have hnot : c ∉ sortedChains (newChains.filter (· ∉ oldChains)) := fun hc =>
        of_decide_eq_true (mem_filter.mp (mem_sortedChains.mp hc)).2 ((hoc c).mpr ho)
      rw [if_neg hnot, if_pos ho, if_pos (Or.inl ho)]
    · by_cases hn : c ∈ new.chains
      · have hin : c ∈ sortedChains (newChains.filter (· ∉ oldChains)) := mem_sortedChains.mpr
          (mem_filter.mpr ⟨(hnc c).mpr hn, decide_eq_true fun h => ho ((hoc c).mp h)⟩)
        rw [if_pos hin, if_pos (Or.inr hn), hno hold c ho]
      · have hnot : c ∉ sortedChains (newChains.filter (· ∉ oldChains)) := fun hc =>
          hn ((hnc c).mp (mem_filter.mp (mem_sortedChains.mp hc)).1)
        rw [if_neg hnot, if_neg ho, if_neg (not_or.mpr ⟨ho, hn⟩)]
  -- every chain is edited
  generalize hchains : (sortedChains (oldChains ++ newChains)).filter (fun chain => ¬ "-sg-".toList <:+: chain) ++
    (sortedChains (oldChains ++ newChains)).filter (fun chain => "-sg-".toList <:+: chain) = chains
  have hperm : chains.Perm (sortedChains (oldChains ++ newChains)) := by
    have hnot : (sortedChains (oldChains ++ newChains)).filter (fun chain => ¬ "-sg-".toList <:+: chain) =
        (sortedChains (oldChains ++ newChains)).filter (fun chain => !decide ("-sg-".toList <:+: chain)) :=
      filter_congr fun c _ => decide_not
    rw [← hchains, hnot]
    exact perm_append_comm.trans (filter_append_perm _ _)
  have hmem : ∀ c, c ∈ chains ↔ c ∈ old.chains ∨ c ∈ new.chains := fun c => by
    rw [hperm.mem_iff, mem_sortedChains, mem_append, hoc, hnc]
  obtain ⟨t₂, hrun₂, hnodup₂, hget₂⟩ := run_diffs hndiff
    (fun c => ((getRulesByChain old.lines).get c).getD []) (fun c => ((getRulesByChain new.lines).get c).getD []) chains hnodup₁
    (hperm.nodup_iff.mpr (sortedChains_nodup _)) hold.map_splitLast hnew.map_splitLast
    (fun c hc => by rw [hget₁, if_pos ((hmem c).mp hc)])
    fun c hc r hr x hx => by
      rw [hget₁, if_pos (Or.inr ((hnew.mem_rules hr).2 x hx))]
      rfl
  have hget₂ : ∀ c, t₂.get c = if c ∈ old.chains ∨ c ∈ new.chains then some (new.rules c) else none := fun c => by
    rw [hget₂, hget₁]
    by_cases hc : c ∈ chains
    · rw [if_pos hc, if_pos ((hmem c).mp hc)]
    · rw [if_neg hc, if_neg fun h => hc ((hmem c).mpr h), if_neg fun h => hc ((hmem c).mpr h)]
  -- the old chains are empty, and no rule of the new listing jumps to one
  obtain ⟨t₃, hrun₃, hnodup₃, hget₃⟩ := run_axe (sortedChains (oldChains.filter (· ∉ newChains)))
    hnodup₂ (sortedChains_nodup _)
    (fun c hc => by
      obtain ⟨ho, hnot⟩ := mem_filter.mp (mem_sortedChains.mp hc)
      rw [hget₂, if_pos (Or.inl ((hoc c).mp ho)), hno hnew c fun h => of_decide_eq_true hnot ((hnc c).mpr h)])
    fun e he r hr c hc heq => by
      obtain ⟨-, hnot⟩ := mem_filter.mp (mem_sortedChains.mp hc)
      have hentry := hnodup₂.mem_iff.mp he
      rw [hget₂] at hentry
      split at hentry
      case isTrue =>
        rw [← Option.some.inj hentry] at hr
        exact of_decide_eq_true hnot ((hnc c).mpr ((hnew.mem_rules hr).2 c heq))
      case isFalse => cases hentry
  refine ⟨t₃, ?_, hnodup₃, fun c => ?_⟩
  · rw [append_assoc, run_append hrun₁, run_append hrun₂]
    exact hrun₃
  · rw [hget₃, hget₂]
    by_cases hn : c ∈ new.chains
    · have hnot : c ∉ sortedChains (oldChains.filter (· ∉ newChains)) := fun hc =>
        of_decide_eq_true (mem_filter.mp (mem_sortedChains.mp hc)).2 ((hnc c).mpr hn)
      rw [if_neg hnot, if_pos (Or.inr hn), if_pos hn]
    · by_cases ho : c ∈ old.chains
      · have hin : c ∈ sortedChains (oldChains.filter (· ∉ newChains)) := mem_sortedChains.mpr
          (mem_filter.mpr ⟨(hoc c).mpr ho, decide_eq_true fun h => hn ((hnc c).mp h)⟩)
        rw [if_pos hin, if_neg hn]
      · have hnot : c ∉ sortedChains (oldChains.filter (· ∉ newChains)) := fun hc =>
          ho ((hoc c).mp (mem_filter.mp (mem_sortedChains.mp hc)).1)
        rw [if_neg hnot, if_neg hn, if_neg (not_or.mpr ⟨ho, hn⟩)]

/-- A chain that the new listing has no more. -/
def oldListing : Listing :=
  [.chain "FORWARD".toList (some "ACCEPT [0:0]".toList), .chain "a-old".toList (some "- [0:0]".toList),
    .rule "FORWARD".toList "-j a-old".toList, .rule "a-old".toList "-j DROP".toList]

def newListing : Listing :=
  [.chain "FORWARD".toList (some "ACCEPT [0:0]".toList), .chain "a-new".toList none,
    .rule "FORWARD".toList "-j a-new".toList, .rule "a-new".toList "-j DROP".toList]

/-- The edit script that removes all and adds all, for lines that differ. -/
def replaceAll (a b : List Line) : List DiffLine :=
  if a = b then a.map .common else a.map .removed ++ b.map .added

theorem isNdiff_replaceAll : IsNdiff replaceAll := by
  have hold : ∀ a b : List Line, ((a.map DiffLine.removed ++ b.map DiffLine.added).filterMap DiffLine.oldLine) = a := fun a b => by
    rw [filterMap_append, filterMap_map, filterMap_map]
    exact (congrArg₂ _ (filterMap_some) (filterMap_eq_nil_iff.mpr fun _ _ => rfl)).trans (append_nil a)
  have hnew : ∀ a b : List Line, ((a.map DiffLine.removed ++ b.map DiffLine.added).filterMap DiffLine.newLine) = b := fun a b => by
    rw [filterMap_append, filterMap_map, filterMap_map]
    exact (congrArg₂ _ (filterMap_eq_nil_iff.mpr fun _ _ => rfl) (filterMap_some)).trans (nil_append b)
  have hcommon : ∀ a : List Line, (a.map DiffLine.common).filterMap DiffLine.oldLine = a ∧
      (a.map DiffLine.common).filterMap DiffLine.newLine = a := fun a => by
    rw [filterMap_map, filterMap_map]
    exact ⟨filterMap_some, filterMap_some⟩
  refine ⟨fun a b => ?_, fun a b => ?_, fun a => if_pos rfl⟩
  · rw [replaceAll]
    split
    case isTrue => exact (hcommon a).1
    case isFalse => exact hold a b
  · rw [replaceAll]
    split
    case isTrue heq => rw [← heq]; exact (hcommon a).2
    case isFalse => exact hnew a b

/-- The jumps of the two listings. -/
def jumpTarget (rule : Line) : Option Line :=
  if rule = "-j a-old".toList then some "a-old".toList
  else if rule = "-j a-new".toList then some "a-new".toList else none

theorem generatePathBetweenRules_replaced :
    (∃ t, run jumpTarget [("FORWARD".toList, ["-j a-old".toList]), ("a-old".toList, ["-j DROP".toList])]
        (generatePathBetweenRules replaceAll oldListing.lines newListing.lines) = some t ∧ newListing.Describes t) ∧
      (oldListing = newListing → generatePathBetweenRules replaceAll oldListing.lines newListing.lines = []) := by
  have hold : oldListing.WellFormed jumpTarget := by
    refine ⟨fun e he name rest heq => ?_, fun e he chain rule heq => ?_, fun e he chain rule heq => ?_⟩
    all_goals
      subst heq
      simp only [oldListing, mem_cons, not_mem_nil, or_false, Entry.chain.injEq, Entry.rule.injEq, reduceCtorEq,
        false_or, or_self] at he
      rcases he with ⟨rfl, rfl⟩ | ⟨rfl, rfl⟩ <;> decide
  have hnew : newListing.WellFormed jumpTarget := by
    refine ⟨fun e he name rest heq => ?_, fun e he chain rule heq => ?_, fun e he chain rule heq => ?_⟩
    all_goals
      subst heq
      simp only [newListing, mem_cons, not_mem_nil, or_false, Entry.chain.injEq, Entry.rule.injEq, reduceCtorEq,
        false_or, or_self] at he
      rcases he with ⟨rfl, rfl⟩ | ⟨rfl, rfl⟩ <;> decide
  refine generatePathBetweenRules_exact isNdiff_replaceAll hold hnew ⟨?_, fun c => ?_⟩
  · rw [Dict.KeysNodup]
    decide
  · by_cases hf : c = "FORWARD".toList
    · subst hf
      decide
    · by_cases ho : c = "a-old".toList
      · subst ho
        decide
      · have hchains : oldListing.chains = ["FORWARD".toList, "a-old".toList] := rfl
        have hskip : ∀ (e : Line × List Line) (d : Dict Line (List Line)), e.1 ≠ c → Dict.get (e :: d) c = Dict.get d c :=
          fun e d he => by rw [Dict.get_cons, if_neg he]
        rw [hchains, if_neg (not_mem_cons_of_ne_of_not_mem hf (not_mem_cons_of_ne_of_not_mem ho not_mem_nil)),
          hskip, hskip]
        · rfl
        · dsimp only
          exact Ne.symm ho
        · dsimp only
          exact Ne.symm hf

end Mitaka.Neutron
