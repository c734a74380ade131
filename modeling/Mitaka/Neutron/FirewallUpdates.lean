/-
  Subject: neutron/agent/linux/iptables_firewall.py: the driver and its operations, and
           what its tables hold after any run of them.

  The tables always hold a set-up of some ports: the present ones, or in a deferred section
  those of its beginning (`Inv`). Every operation that writes the tables first takes that
  set-up away, and what is left is a fresh driver (`rebuild`). The security group data of an
  update waits for the next such operation.
-/
import Mitaka.Neutron.FirewallTeardown
import Mitaka.Lib.Run

namespace Mitaka.Neutron.Firewall

open Fallible IptablesTable List

/-! ## 1. The driver -/

/-- What `filter_defer_apply_on` keeps. -/
structure Deferred where
  preDeferFilteredPorts : Dict Line Port
  preDeferUnfilteredPorts : Dict Line Port
  preSgMembers : Dict Line (Dict Ethertype (List Line))
  preSgRules : Dict Line (List SgRule)
  deriving DecidableEq

/-- The driver. The devices noted for the conntrack clean-up are left out: only `security_group_updated` adds some, and
without them nothing is cleaned up. -/
structure Driver where
  tables : Tables
  filteredPorts : Dict Line Port
  unfilteredPorts : Dict Line Port
  sg : SecurityGroups
  deferApply : Option Deferred
  deriving DecidableEq

/-- The ports of the driver. -/
def Driver.live (d : Driver) : List Port := d.filteredPorts.map Prod.snd ++ d.unfilteredPorts.map Prod.snd

/-- `port['device'] in self.ports`. -/
def Driver.knows (d : Driver) (port : Port) : Prop :=
  (d.filteredPorts.get port.device).isSome = true ∨ (d.unfilteredPorts.get port.device).isSome = true

instance (d : Driver) (port : Port) : Decidable (d.knows port) := inferInstanceAs (Decidable (_ ∨ _))

/-- `_set_ports`. -/
def setPorts (d : Driver) (port : Port) : Driver :=
  if portSecEnabled port = false then
    { d with
      unfilteredPorts := d.unfilteredPorts.set port.device port
      filteredPorts := d.filteredPorts.erase port.device }
  else
    { d with
      filteredPorts := d.filteredPorts.set port.device port
      unfilteredPorts := d.unfilteredPorts.erase port.device }

/-- `_unset_ports`. -/
def unsetPorts (d : Driver) (port : Port) : Driver :=
  { d with
    unfilteredPorts := d.unfilteredPorts.erase port.device
    filteredPorts := d.filteredPorts.erase port.device }

section Operations

variable (cfg : Config)

/-- The tables of a driver that was just made, with a conntrack zone map. -/
def freshTables (zones : Dict Line ℕ) : Except Error Tables := do
  let filter ← initialFilter cfg.wrapName
  let raw ← initialRaw cfg.wrapName
  .ok ⟨filter, filter, raw, raw, zones⟩

/-- `_setup_chains`. -/
def setupChains (d : Driver) : Except Error Driver :=
  if d.deferApply = none then do
    let tables ← setupChainsApply cfg d.live d.sg d.filteredPorts d.unfilteredPorts d.tables
    .ok { d with tables := tables }
  else .ok d

/-- `_remove_chains`. -/
def removeChains (d : Driver) : Except Error Driver :=
  if d.deferApply = none then do
    let tables ← removeChainsApply cfg d.live d.filteredPorts d.unfilteredPorts d.tables
    .ok { d with tables := tables }
  else .ok d

/-- `prepare_port_filter`. -/
def preparePortFilter (d : Driver) (port : Port) : Except Error Driver := do
  let d ← removeChains cfg d
  setupChains cfg (setPorts d port)

/-- `update_port_filter`. -/
def updatePortFilter (d : Driver) (port : Port) : Except Error Driver :=
  if ¬ d.knows port then .ok d
  else do
    let d ← removeChains cfg d
    setupChains cfg (setPorts d port)

/-- `remove_port_filter`. -/
def removePortFilter (d : Driver) (port : Port) : Except Error Driver :=
  if ¬ d.knows port then .ok d
  else do
    let d ← removeChains cfg d
    setupChains cfg (unsetPorts d port)

/-- `update_security_group_rules`. -/
def updateSecurityGroupRules (d : Driver) (sgId : Line) (sgRules : List SgRule) : Driver :=
  { d with sg := { d.sg with sgRules := d.sg.sgRules.set sgId sgRules } }

/-- `update_security_group_members`; a set that gets its members exists from then on. -/
def updateSecurityGroupMembers (d : Driver) (sgId : Line) (sgMembers : Dict Ethertype (List Line)) : Driver :=
  { d with
    sg :=
      { d.sg with
        sgMembers := d.sg.sgMembers.set sgId sgMembers
        ipsets :=
          if cfg.enableIpset then d.sg.ipsets ++ (sgMembers.map fun e => ipsetName sgId e.1) else d.sg.ipsets } }

/-- `filter_defer_apply_on`. -/
def filterDeferApplyOn (d : Driver) : Driver :=
  if d.deferApply = none then
    { d with deferApply := some ⟨d.filteredPorts, d.unfilteredPorts, d.sg.sgMembers, d.sg.sgRules⟩ }
  else d

/-- `_get_remote_sg_ids_sets_by_ipversion`, for one of the two. -/
def remoteSgIds (d : Driver) (ethertype : Ethertype) : List Line :=
  (d.filteredPorts.map Prod.snd).flatMap fun port =>
    port.securityGroups.flatMap fun sgId =>
      ((d.sg.sgRules.get sgId).getD []).filterMap fun rule =>
        if rule.ethertype = ethertype then given rule.remoteGroupId else none

/-- `_determine_remote_sgs_to_remove`, for one of the two. -/
def remoteSgsToRemove (d : Driver) (pre : Deferred) (ethertype : Ethertype) : List Line :=
  (pre.preSgMembers.map Prod.fst).filter (· ∉ remoteSgIds d ethertype)

/-- `_determine_sg_rules_to_remove`. -/
def sgRulesToRemove (d : Driver) (pre : Deferred) : List Line :=
  (pre.preSgRules.map Prod.fst).filter (· ∉ (d.filteredPorts.map Prod.snd).flatMap (·.securityGroups))

/-- `_remove_unused_security_group_info`. -/
def removeUnusedSecurityGroupInfo (d : Driver) (pre : Deferred) : Driver :=
  let remove4 := remoteSgsToRemove d pre .ipv4
  let remove6 := remoteSgsToRemove d pre .ipv6
  let destroyed := (remove4.map (ipsetName · .ipv4)) ++ (remove6.map (ipsetName · .ipv6))
  { d with
    sg :=
      { sgRules := d.sg.sgRules.filter fun e => e.1 ∉ sgRulesToRemove d pre
        sgMembers := d.sg.sgMembers.filter fun e => ¬ (e.1 ∈ remove4 ∧ e.1 ∈ remove6)
        ipsets := if cfg.enableIpset then d.sg.ipsets.filter (· ∉ destroyed) else d.sg.ipsets } }

/-- `filter_defer_apply_off`. -/
def filterDeferApplyOff (d : Driver) : Except Error Driver :=
  match d.deferApply with
  | none => .ok d
  | some pre => do
    let tables ← removeChainsApply cfg d.live pre.preDeferFilteredPorts pre.preDeferUnfilteredPorts d.tables
    let tables ← setupChainsApply cfg d.live d.sg d.filteredPorts d.unfilteredPorts tables
    .ok (removeUnusedSecurityGroupInfo cfg { d with tables := tables, deferApply := none } pre)

/-- The operations of the driver. -/
inductive Op
  | prepare (port : Port)
  | update (port : Port)
  | remove (port : Port)
  | updateRules (sgId : Line) (sgRules : List SgRule)
  | updateMembers (sgId : Line) (sgMembers : Dict Ethertype (List Line))
  | deferOn
  | deferOff

def apply (d : Driver) : Op → Except Error Driver
  | .prepare port => preparePortFilter cfg d port
  | .update port => updatePortFilter cfg d port
  | .remove port => removePortFilter cfg d port
  | .updateRules sgId sgRules => .ok (updateSecurityGroupRules d sgId sgRules)
  | .updateMembers sgId sgMembers => .ok (updateSecurityGroupMembers cfg d sgId sgMembers)
  | .deferOn => .ok (filterDeferApplyOn d)
  | .deferOff => filterDeferApplyOff cfg d

/-- An operation that returns. -/
def step (d : Driver) (op : Op) : Option Driver := (apply cfg d op).toOption

/-- The port of an operation is named as the agents name ports. -/
def OpNamed (_ : Driver) : Op → Prop
  | .prepare port => WellNamed cfg port
  | .update port => WellNamed cfg port
  | _ => True

/-- A driver that was just made. -/
def startDriver (zones : Dict Line ℕ) : Driver := ⟨startTables cfg zones, [], [], ⟨[], [], []⟩, none⟩

/-- **The rebuild**: one set-up of the present ports, with the present security group data and zones, on a fresh
driver. -/
def rebuild (d : Driver) : Except Error Tables := do
  let tables ← freshTables cfg d.tables.deviceZoneMap
  setupChainsApply cfg d.live d.sg d.filteredPorts d.unfilteredPorts tables

/-- The operations that write the tables outside a deferred section, and the one that ends it. -/
def Rebuilds (d : Driver) : Op → Prop
  | .prepare _ => True
  | .update port => d.knows port
  | .remove port => d.knows port
  | .deferOff => d.deferApply ≠ none
  | _ => False

end Operations

/-! ## 2. What the tables hold -/

section Runs

variable {cfg : Config}

theorem freshTables_eq (cfg : Config) (zones : Dict Line ℕ) : freshTables cfg zones = .ok (startTables cfg zones) := by
  obtain ⟨hf, hr⟩ := initialTables_eq cfg zones
  rw [freshTables, hf, hr]
  rfl

/-- Dictionaries of ports as the driver keeps them. -/
structure PortsOk (cfg : Config) (ports : Dict Line Port) : Prop where
  keys : Dict.KeysNodup ports
  named : ∀ port ∈ ports.map Prod.snd, WellNamed cfg port

/-- **The invariant**: the tables hold a set-up of the ports of the driver, or of the beginning of the deferred
section. -/
structure Inv (cfg : Config) (d : Driver) : Prop where
  ports : PortsOk cfg d.filteredPorts
  prePorts : ∀ pre, d.deferApply = some pre → PortsOk cfg pre.preDeferFilteredPorts
  installed : d.deferApply = none →
    Installed cfg (d.filteredPorts.map Prod.snd) (d.unfilteredPorts.map Prod.snd) d.tables
  deferred : ∀ pre, d.deferApply = some pre →
    Installed cfg (pre.preDeferFilteredPorts.map Prod.snd) (pre.preDeferUnfilteredPorts.map Prod.snd) d.tables

theorem Inv.start (cfg : Config) (zones : Dict Line ℕ) : Inv cfg (startDriver cfg zones) :=
  ⟨⟨nodup_nil, nofun⟩, nofun, fun _ => startTables_installed cfg zones, nofun⟩

theorem PortsOk.erase {ports : Dict Line Port} (h : PortsOk cfg ports) (k : Line) : PortsOk cfg (ports.erase k) where
  keys := h.keys.sublist (filter_sublist.map Prod.fst)
  named port hp := h.named port ((filter_sublist.map Prod.snd).subset hp)

theorem PortsOk.set {ports : Dict Line Port} (h : PortsOk cfg ports) {port : Port} (hport : WellNamed cfg port) :
    PortsOk cfg (ports.set port.device port) where
  keys := h.keys.set _ _
  named p hp := by
    obtain ⟨e, he, rfl⟩ := List.mem_map.mp hp
    rcases Dict.mem_set he with rfl | he
    · exact hport
    · exact h.named _ (List.mem_map_of_mem he)

theorem PortsOk.setPorts {d : Driver} (h : PortsOk cfg d.filteredPorts) {port : Port} (hport : WellNamed cfg port) :
    PortsOk cfg (setPorts d port).filteredPorts := by
  unfold Firewall.setPorts
  split_ifs with hs
  · exact h.erase _
  · exact h.set hport

variable {d d₁ d₂ d' : Driver}

/-- **Outside a deferred section**: a teardown of the present ports and a set-up of others is a rebuild. -/
theorem change_rebuilds (hd : Inv cfg d) (hnone : d.deferApply = none)
    (h₁ : removeChains cfg d = .ok d₁) (htables : d₂.tables = d₁.tables) (hdefer : d₂.deferApply = none)
    (hports : PortsOk cfg d₂.filteredPorts) (h₂ : setupChains cfg d₂ = .ok d') :
    d' = { d₂ with tables := d'.tables } ∧ rebuild cfg d' = .ok d'.tables ∧ Inv cfg d' := by
  have hremoved : d₁ = { d with tables := startTables cfg d.tables.deviceZoneMap } := by
    rw [removeChains, if_pos hnone, removeChainsApply_eq hd.ports.named (hd.installed hnone)] at h₁
    exact (Except.ok.inj h₁).symm
  rw [setupChains, if_pos hdefer] at h₂
  obtain ⟨tables, hsetup, h₂⟩ := bind_eq_ok.mp h₂
  cases h₂
  have hlive : d₂.filteredPorts.map Prod.snd ⊆ d₂.live := subset_append_left _ _
  rw [htables, hremoved] at hsetup
  refine ⟨rfl, ?_, hports, fun pre h => ?_, fun _ => setupChainsApply_installed hports.named hports.keys hlive hsetup,
    fun pre h => ?_⟩
  · rw [rebuild, freshTables_eq]
    exact setupChainsApply_rerun hlive hsetup
  · exact absurd (hdefer.symm.trans h) nofun
  · exact absurd (hdefer.symm.trans h) nofun

/-- **The end of a deferred section** is a rebuild with the data before the unused ones go. -/
theorem deferOff_rebuilds {d d' : Driver} (hd : Inv cfg d) {pre : Deferred} (hpre : d.deferApply = some pre)
    (h : filterDeferApplyOff cfg d = .ok d') :
    d' = removeUnusedSecurityGroupInfo cfg { d with tables := d'.tables, deferApply := none } pre ∧
      rebuild cfg { d' with sg := d.sg } = .ok d'.tables ∧ Inv cfg d' := by
  simp only [filterDeferApplyOff, hpre, removeChainsApply_eq (hd.prePorts pre hpre).named (hd.deferred pre hpre),
    bind_eq_ok] at h
  obtain ⟨_, h₀, tables, hsetup, h⟩ := h
  cases h₀
  cases h
  have hlive : d.filteredPorts.map Prod.snd ⊆ d.live := subset_append_left _ _
  refine ⟨rfl, ?_, hd.ports, nofun, fun _ => setupChainsApply_installed hd.ports.named hd.ports.keys hlive hsetup, nofun⟩
  rw [rebuild, freshTables_eq]
  exact setupChainsApply_rerun hlive hsetup

/-- A teardown and a set-up in a deferred section do nothing. -/
theorem change_deferred {pre : Deferred} (hpre : d.deferApply = some pre)
    (h₁ : removeChains cfg d = .ok d₁) (hdefer : d₂.deferApply = d₁.deferApply) (h₂ : setupChains cfg d₂ = .ok d') :
    d₁ = d ∧ d' = d₂ := by
  have hne : ¬ d.deferApply = none := by
    rw [hpre]
    exact nofun
  rw [removeChains, if_neg hne] at h₁
  cases h₁
  rw [setupChains, hdefer, if_neg hne] at h₂
  exact ⟨rfl, (Except.ok.inj h₂).symm⟩

theorem setPorts_frame (d : Driver) (port : Port) :
    (setPorts d port).tables = d.tables ∧ (setPorts d port).deferApply = d.deferApply ∧ (setPorts d port).sg = d.sg := by
  unfold setPorts
  split_ifs
  · exact ⟨rfl, rfl, rfl⟩
  · exact ⟨rfl, rfl, rfl⟩

/-- **A change of the ports** outside a deferred section or in one. -/
theorem change_spec (hd : Inv cfg d) (h₁ : removeChains cfg d = .ok d₁)
    (htables : d₂.tables = d₁.tables) (hdefer : d₂.deferApply = d₁.deferApply) (hsg : d₂.sg = d₁.sg)
    (hports : PortsOk cfg d₁.filteredPorts → PortsOk cfg d₂.filteredPorts) (h₂ : setupChains cfg d₂ = .ok d') :
    Inv cfg d' ∧ d'.sg = d.sg ∧ (d'.deferApply = none → rebuild cfg d' = .ok d'.tables) := by
  cases hpre : d.deferApply with
  | none =>
    have hremoved : d₁ = { d with tables := d₁.tables } := by
      rw [removeChains, if_pos hpre] at h₁
      obtain ⟨_, _, h₁⟩ := bind_eq_ok.mp h₁
      cases h₁
      rfl
    have hp₁ : PortsOk cfg d₁.filteredPorts := by
      rw [hremoved]
      exact hd.ports
    have hn₁ : d₁.deferApply = none := by
      rw [hremoved]
      exact hpre
    obtain ⟨hd', hre, hinv⟩ := change_rebuilds hd hpre h₁ htables (hdefer.trans hn₁) (hports hp₁) h₂
    refine ⟨hinv, ?_, fun _ => hre⟩
    have hsg₁ : d₁.sg = d.sg := by
      rw [hremoved]
    rw [hd']
    exact hsg.trans hsg₁
  | some pre =>
    obtain ⟨rfl, rfl⟩ := change_deferred hpre h₁ hdefer h₂
    refine ⟨⟨hports hd.ports, fun p hp => hd.prePorts p (hdefer ▸ hp), fun hn => ?_, fun p hp => ?_⟩, hsg, fun hn => ?_⟩
    · exact absurd (hpre.symm.trans (hdefer.symm.trans hn)) nofun
    · rw [htables]
      exact hd.deferred p (hdefer ▸ hp)
    · exact absurd (hpre.symm.trans (hdefer.symm.trans hn)) nofun

/-- **One operation.** -/
theorem apply_spec {d d' : Driver} {op : Op} (hd : Inv cfg d) (hop : OpNamed cfg d op) (h : apply cfg d op = .ok d') :
    Inv cfg d' ∧
      (d'.deferApply = none → Rebuilds d op → rebuild cfg { d' with sg := d.sg } = .ok d'.tables) ∧
      (¬ Rebuilds d op → d'.tables = d.tables ∧ d'.filteredPorts = d.filteredPorts ∧
        d'.unfilteredPorts = d.unfilteredPorts) := by
  have hset {port : Port} (hport : WellNamed cfg port)
      (hc : (removeChains cfg d >>= fun d => setupChains cfg (setPorts d port)) = .ok d') :
      Inv cfg d' ∧ (d'.deferApply = none → rebuild cfg { d' with sg := d.sg } = .ok d'.tables) := by
    obtain ⟨d₁, h₁, h₂⟩ := bind_eq_ok.mp hc
    obtain ⟨htables, hdefer, hsg⟩ := setPorts_frame d₁ port
    obtain ⟨hinv, hsg', hre⟩ := change_spec hd h₁ htables hdefer hsg (fun hp => hp.setPorts hport) h₂
    refine ⟨hinv, fun hn => ?_⟩
    rw [← hsg']
    exact hre hn
  cases op with
  | prepare port =>
    obtain ⟨hinv, hre⟩ := hset hop h
    exact ⟨hinv, fun hn _ => hre hn, fun hr => absurd trivial hr⟩
  | update port =>
    simp only [apply, updatePortFilter] at h
    split_ifs at h with hk
    · obtain ⟨hinv, hre⟩ := hset hop h
      exact ⟨hinv, fun hn _ => hre hn, fun hr => absurd hk hr⟩
    · cases h
      exact ⟨hd, fun _ hr => absurd hr hk, fun _ => ⟨rfl, rfl, rfl⟩⟩
  | remove port =>
    simp only [apply, removePortFilter] at h
    split_ifs at h with hk
    · obtain ⟨d₁, h₁, h₂⟩ := bind_eq_ok.mp h
      have hframe : (unsetPorts d₁ port).tables = d₁.tables := rfl
      obtain ⟨hinv, hsg', hre⟩ := change_spec hd h₁ hframe rfl rfl (fun hp => hp.erase _) h₂
      refine ⟨hinv, fun hn _ => ?_, fun hr => absurd hk hr⟩
      rw [← hsg']
      exact hre hn
    · cases h
      exact ⟨hd, fun _ hr => absurd hr hk, fun _ => ⟨rfl, rfl, rfl⟩⟩
  | updateRules sgId sgRules =>
    cases h
    exact ⟨⟨hd.ports, hd.prePorts, hd.installed, hd.deferred⟩, fun _ hr => hr.elim, fun _ => ⟨rfl, rfl, rfl⟩⟩
  | updateMembers sgId sgMembers =>
    cases h
    exact ⟨⟨hd.ports, hd.prePorts, hd.installed, hd.deferred⟩, fun _ hr => hr.elim, fun _ => ⟨rfl, rfl, rfl⟩⟩
  | deferOn =>
    simp only [apply, filterDeferApplyOn] at h
    split_ifs at h with hn
    · cases h
      refine ⟨⟨hd.ports, ?_, nofun, ?_⟩, fun _ hr => hr.elim, fun _ => ⟨rfl, rfl, rfl⟩⟩
      · intro pre hp
        cases hp
        exact hd.ports
      · intro pre hp
        cases hp
        exact hd.installed hn
    · cases h
      exact ⟨hd, fun _ hr => hr.elim, fun _ => ⟨rfl, rfl, rfl⟩⟩
  | deferOff =>
    cases hpre : d.deferApply with
    | none =>
      simp only [apply, filterDeferApplyOff, hpre] at h
      cases h
      exact ⟨hd, fun _ hr => absurd hpre hr, fun _ => ⟨rfl, rfl, rfl⟩⟩
    | some pre =>
      obtain ⟨_, hre, hinv⟩ := deferOff_rebuilds hd hpre h
      refine ⟨hinv, fun _ _ => hre, fun hr => absurd (fun hn => ?_) hr⟩
      exact absurd (hpre.symm.trans hn) nofun

theorem step_eq_some {d d' : Driver} {op : Op} : step cfg d op = some d' ↔ apply cfg d op = .ok d' := by
  unfold step
  cases apply cfg d op with
  | error e => exact ⟨nofun, nofun⟩
  | ok u => exact ⟨fun h => congrArg Except.ok (Option.some.inj h), fun h => congrArg some (Except.ok.inj h)⟩

theorem Inv.reach {zones : Dict Line ℕ} {d : Driver} (h : Reach (step cfg) (OpNamed cfg) (startDriver cfg zones) d) :
    Inv cfg d :=
  h.invariant (Inv.start cfg zones) fun _ _ _ hd hop hs =>
    (apply_spec hd hop (step_eq_some.mp hs)).1

end Runs

/-! ## 3. Data no port uses -/

section Unused

variable {cfg : Config} {sg sg' : SecurityGroups}

/-- Two states of the security group data give a port the same rules. -/
def SameRules (cfg : Config) (sg sg' : SecurityGroups) (port : Port) : Prop :=
  ∀ direction, selectSgRulesForPort cfg sg port direction = selectSgRulesForPort cfg sg' port direction ∧
    ∀ rule ∈ selectSgrByDirection port direction ++ selectSgRulesForPort cfg sg port direction,
      ∀ protocol, convertSgRuleToIptablesArgs cfg sg { rule with protocol := protocol } =
        convertSgRuleToIptablesArgs cfg sg' { rule with protocol := protocol }

theorem convertSgr_congr {rules : List SgRule}
    (h : ∀ rule ∈ rules, convertSgRuleToIptablesArgs cfg sg rule = convertSgRuleToIptablesArgs cfg sg' rule) :
    convertSgrToIptablesRules cfg sg rules = convertSgrToIptablesRules cfg sg' rules := by
  unfold convertSgrToIptablesRules
  rw [filterMap_congr h]

theorem addRulesBySecurityGroup_congr {port : Port} (h : SameRules cfg sg sg' port) (direction : Direction) :
    addRulesBySecurityGroup cfg sg port direction = addRulesBySecurityGroup cfg sg' port direction := by
  obtain ⟨hselect, hconvert⟩ := h direction
  have h4 : convertSgrToIptablesRules cfg sg
      (splitSgrByEthertype (selectSgrByDirection port direction ++ selectSgRulesForPort cfg sg port direction)).1 =
    convertSgrToIptablesRules cfg sg'
      (splitSgrByEthertype (selectSgrByDirection port direction ++ selectSgRulesForPort cfg sg port direction)).1 :=
    convertSgr_congr fun rule hr => hconvert rule (mem_filter.mp hr).1 rule.protocol
  have h6 : convertSgrToIptablesRules cfg sg
      (splitSgrByEthertype (selectSgrByDirection port direction ++ selectSgRulesForPort cfg sg port direction)).2 =
    convertSgrToIptablesRules cfg sg'
      (splitSgrByEthertype (selectSgrByDirection port direction ++ selectSgRulesForPort cfg sg port direction)).2 := by
    refine convertSgr_congr fun rule hr => ?_
    obtain ⟨rule', hr', rfl⟩ := List.mem_map.mp hr
    have hmem := (mem_filter.mp hr').1
    split_ifs
    · exact hconvert rule' hmem _
    · exact hconvert rule' hmem rule'.protocol
  funext ts
  simp only [addRulesBySecurityGroup]
  rw [← hselect, h4, h6]

theorem setupChainsApply_congr {ports unfilteredPorts : Dict Line Port} {live : List Port}
    (h : ∀ port ∈ ports.map Prod.snd, SameRules cfg sg sg' port) (ts : Tables) :
    setupChainsApply cfg live sg ports unfilteredPorts ts = setupChainsApply cfg live sg' ports unfilteredPorts ts := by
  have hchain (port : Port) (hport : port ∈ sortedPorts ports) (direction : Direction) (ts : Tables) :
      setupChain cfg live sg port direction ts = setupChain cfg live sg' port direction ts := by
    rw [setupChain, setupChain, addRulesBySecurityGroup_congr (h port (mem_sortedPorts hport)) direction]
  have hfold (l : List Port) (hl : l ⊆ sortedPorts ports) (ts : Tables) :
      (l.foldlM (fun ts port => do
        let ts ← setupChain cfg live sg port .ingress ts
        setupChain cfg live sg port .egress ts) ts) =
      (l.foldlM (fun ts port => do
        let ts ← setupChain cfg live sg' port .ingress ts
        setupChain cfg live sg' port .egress ts) ts) := by
    induction l generalizing ts with
    | nil => rfl
    | cons port l ih =>
      have hport := hl mem_cons_self
      rw [foldlM_cons, foldlM_cons, hchain port hport]
      simp only [hchain port hport, ih fun _ hb => hl (mem_cons_of_mem _ hb)]
  simp only [setupChainsApply]
  rw [hfold _ fun _ => id]

/-- The name of a set tells its family. -/
theorem ipsetName_ethertype {g g' : Line} {e e' : Ethertype} (h : ipsetName g e = ipsetName g' e') : e = e' := by
  have hget := congrArg (fun l : Line => l[4]?) h
  cases e with
  | ipv4 =>
    cases e' with
    | ipv4 => rfl
    | ipv6 => exact absurd (Option.some.inj hget) (by decide)
  | ipv6 =>
    cases e' with
    | ipv4 => exact absurd (Option.some.inj hget) (by decide)
    | ipv6 => rfl

/-- No set that goes is one a rule still names: the ports have no remote groups in rules of their own, and the names of
the sets tell the groups apart. -/
structure SetsApart (cfg : Config) (d : Driver) (pre : Deferred) : Prop where
  own : ∀ port ∈ d.filteredPorts.map Prod.snd, ∀ rule ∈ port.securityGroupRules, given rule.remoteGroupId = none
  names : ∀ ethertype, ∀ g ∈ pre.preSgMembers.map Prod.fst, ∀ g' ∈ remoteSgIds d ethertype,
    ipsetName g ethertype = ipsetName g' ethertype → g = g'

theorem mem_remoteSgIds {d : Driver} {port : Port} (hport : port ∈ d.filteredPorts.map Prod.snd) {sgId : Line}
    (hsg : sgId ∈ port.securityGroups) {rule : SgRule} (hrule : rule ∈ (d.sg.sgRules.get sgId).getD []) {g : Line}
    (hg : given rule.remoteGroupId = some g) : g ∈ remoteSgIds d rule.ethertype := by
  refine mem_flatMap.mpr ⟨port, hport, mem_flatMap.mpr ⟨sgId, hsg, mem_filterMap.mpr ⟨rule, hrule, ?_⟩⟩⟩
  rw [if_pos rfl]
  exact hg

/-- **What `_remove_unused_security_group_info` takes away is used by no port.** -/
theorem removeUnused_sameRules {d : Driver} {pre : Deferred} (h : cfg.enableIpset = true → SetsApart cfg d pre)
    {port : Port} (hport : port ∈ d.filteredPorts.map Prod.snd) :
    SameRules cfg (removeUnusedSecurityGroupInfo cfg d pre).sg d.sg port := by
  have hrules (sgId : Line) (hsg : sgId ∈ port.securityGroups) :
      (removeUnusedSecurityGroupInfo cfg d pre).sg.sgRules.get sgId = d.sg.sgRules.get sgId := by
    refine Dict.get_filter_of_keep d.sg.sgRules (fun k => k ∉ sgRulesToRemove d pre) fun hmem => ?_
    have hnot := of_decide_eq_true (mem_filter.mp hmem).2
    exact hnot (mem_flatMap.mpr ⟨port, hport, hsg⟩)
  have hmembers {ethertype : Ethertype} {g : Line} (hg : g ∈ remoteSgIds d ethertype) :
      (removeUnusedSecurityGroupInfo cfg d pre).sg.sgMembers.get g = d.sg.sgMembers.get g := by
    refine Dict.get_filter_of_keep d.sg.sgMembers
      (fun k => ¬ (k ∈ remoteSgsToRemove d pre .ipv4 ∧ k ∈ remoteSgsToRemove d pre .ipv6)) fun hmem => ?_
    have hnot4 := of_decide_eq_true (mem_filter.mp hmem.1).2
    have hnot6 := of_decide_eq_true (mem_filter.mp hmem.2).2
    cases ethertype with
    | ipv4 => exact hnot4 hg
    | ipv6 => exact hnot6 hg
  have hsets (hi : cfg.enableIpset = true) {ethertype : Ethertype} {g : Line} (hg : g ∈ remoteSgIds d ethertype) :
      ipsetName g ethertype ∈ (removeUnusedSecurityGroupInfo cfg d pre).sg.ipsets ↔
        ipsetName g ethertype ∈ d.sg.ipsets := by
    simp only [removeUnusedSecurityGroupInfo, hi, if_true, mem_filter, and_iff_left_iff_imp, decide_eq_true_eq]
    intro _ hmem
    have hgone {e : Ethertype} (hm : ipsetName g ethertype ∈ (remoteSgsToRemove d pre e).map (ipsetName · e)) : False := by
      obtain ⟨g', hg', he⟩ := List.mem_map.mp hm
      obtain ⟨hkey, hnot⟩ := mem_filter.mp hg'
      have het := ipsetName_ethertype he
      subst het
      have hsame := (h hi).names e g' hkey g hg he
      exact of_decide_eq_true hnot (hsame ▸ hg)
    rcases mem_append.mp hmem with hm | hm
    · exact hgone hm
    · exact hgone hm
  intro direction
  have hselect : selectSgRulesForPort cfg (removeUnusedSecurityGroupInfo cfg d pre).sg port direction =
      selectSgRulesForPort cfg d.sg port direction := by
    unfold selectSgRulesForPort
    refine flatMap_congr fun sgId hsg => ?_
    rw [hrules sgId hsg]
    refine flatMap_congr fun rule hrule => ?_
    have hexpand : expandSgRuleWithRemoteIps cfg (removeUnusedSecurityGroupInfo cfg d pre).sg rule port direction =
        expandSgRuleWithRemoteIps cfg d.sg rule port direction := by
      unfold expandSgRuleWithRemoteIps
      cases hg : given rule.remoteGroupId with
      | none => rfl
      | some g => simp only [hmembers (mem_remoteSgIds hport hsg hrule hg)]
    rw [hexpand]
  refine ⟨hselect, fun rule hrule protocol => ?_⟩
  unfold convertSgRuleToIptablesArgs
  cases hg : given rule.remoteGroupId with
  | none => rfl
  | some g =>
    dsimp only
    split_ifs with hi
    · have hmem : g ∈ remoteSgIds d rule.ethertype := by
        rcases mem_append.mp hrule with hrule | hrule
        · have hnone := (h hi).own port hport rule (mem_filter.mp hrule).1
          exact absurd (hnone.symm.trans hg) nofun
        · rw [hselect] at hrule
          obtain ⟨sgId, hsg, hrule⟩ := mem_flatMap.mp hrule
          obtain ⟨rule', hrule', hrule⟩ := mem_flatMap.mp hrule
          rw [if_pos hi] at hrule
          split_ifs at hrule with hdir
          · rw [mem_singleton] at hrule
            subst hrule
            exact mem_remoteSgIds hport hsg hrule' hg
          · exact nomatch hrule
      simp only [generateIpsetRuleArgs, hsets hi hmem]
    · rfl

end Unused

/-! ## 4. Updates and rebuild -/

section Updates

variable {cfg : Config}

theorem removeChains_sg {d d' : Driver} (h : removeChains cfg d = .ok d') : d'.sg = d.sg := by
  unfold removeChains at h
  split_ifs at h
  · obtain ⟨_, _, h⟩ := bind_eq_ok.mp h
    cases h
    rfl
  · cases h
    rfl

theorem setupChains_sg {d d' : Driver} (h : setupChains cfg d = .ok d') : d'.sg = d.sg := by
  unfold setupChains at h
  split_ifs at h
  · obtain ⟨_, _, h⟩ := bind_eq_ok.mp h
    cases h
    rfl
  · cases h
    rfl

/-- Only the end of a deferred section writes the tables and the security group data. -/
theorem rebuilds_sg {d d' : Driver} {op : Op} (hd : Inv cfg d) (h : apply cfg d op = .ok d') (hr : Rebuilds d op) :
    d'.sg = d.sg ∨ ∃ pre, d.deferApply = some pre ∧
      d' = removeUnusedSecurityGroupInfo cfg { d with tables := d'.tables, deferApply := none } pre := by
  have hchange {f : Driver → Driver} (hf : ∀ d, (f d).sg = d.sg)
      (hc : (removeChains cfg d >>= fun d => setupChains cfg (f d)) = .ok d') : d'.sg = d.sg := by
    obtain ⟨d₁, h₁, h₂⟩ := bind_eq_ok.mp hc
    exact (setupChains_sg h₂).trans ((hf d₁).trans (removeChains_sg h₁))
  cases op with
  | prepare port => exact .inl (hchange (fun d => (setPorts_frame d port).2.2) h)
  | update port =>
    have hk : d.knows port := hr
    rw [apply, updatePortFilter, if_neg (not_not_intro hk)] at h
    exact .inl (hchange (fun d => (setPorts_frame d port).2.2) h)
  | remove port =>
    have hk : d.knows port := hr
    rw [apply, removePortFilter, if_neg (not_not_intro hk)] at h
    have hframe : ∀ d, (unsetPorts d port).sg = d.sg := fun _ => rfl
    exact .inl (hchange hframe h)
  | updateRules sgId sgRules => exact hr.elim
  | updateMembers sgId sgMembers => exact hr.elim
  | deferOn => exact hr.elim
  | deferOff =>
    obtain ⟨pre, hpre⟩ := Option.ne_none_iff_exists'.mp hr
    exact .inr ⟨pre, hpre, (deferOff_rebuilds hd hpre h).1⟩

/-- **Updates equal a rebuild.** In any run, an operation outside a deferred section that writes the tables, or the one
that ends a deferred section, leaves the tables of a rebuild with the security group data it found; and of one with the
data it left, where the sets that went are told apart from those that stay. The other operations leave the tables and
the ports. -/
theorem updates_rebuild {zones : Dict Line ℕ} {d d' : Driver} {op : Op}
    (h : Reach (step cfg) (OpNamed cfg) (startDriver cfg zones) d) (hop : OpNamed cfg d op)
    (hs : step cfg d op = some d') (hout : d'.deferApply = none) :
    (Rebuilds d op → rebuild cfg { d' with sg := d.sg } = .ok d'.tables ∧
      ((cfg.enableIpset = true → ∀ pre, d.deferApply = some pre → SetsApart cfg d pre) →
        rebuild cfg d' = .ok d'.tables)) ∧
      (¬ Rebuilds d op → d'.tables = d.tables ∧ d'.filteredPorts = d.filteredPorts ∧
        d'.unfilteredPorts = d.unfilteredPorts) := by
  have hd := Inv.reach h
  have happly := step_eq_some.mp hs
  obtain ⟨_, hre, hkeep⟩ := apply_spec hd hop happly
  refine ⟨fun hr => ⟨hre hout hr, fun hapart => ?_⟩, hkeep⟩
  rcases rebuilds_sg hd happly hr with hsg | ⟨pre, hpre, hd'⟩
  · have := hre hout hr
    rwa [← hsg] at this
  · have hsame : ∀ port ∈ d'.filteredPorts.map Prod.snd, SameRules cfg d'.sg d.sg port := by
      rw [hd']
      exact fun port hport => removeUnused_sameRules (fun hi => ⟨(hapart hi pre hpre).own, (hapart hi pre hpre).names⟩) hport
    have hfound := hre hout hr
    rw [rebuild, freshTables_eq] at hfound ⊢
    exact (setupChainsApply_congr hsame _).trans hfound

instance (cfg : Config) (port : Port) : Decidable (WellNamed cfg port) :=
  decidable_of_iff (10 ≤ (cfg.suffix port).length ∧ (cfg.suffix port).all isPortIdChar = true)
    ⟨fun h => ⟨h.1, h.2⟩, fun h => ⟨h.long, h.chars⟩⟩

instance (cfg : Config) (d : Driver) : ∀ op, Decidable (OpNamed cfg d op)
  | .prepare port => inferInstanceAs (Decidable (WellNamed cfg port))
  | .update port => inferInstanceAs (Decidable (WellNamed cfg port))
  | .remove _ => isTrue trivial
  | .updateRules _ _ => isTrue trivial
  | .updateMembers _ _ => isTrue trivial
  | .deferOn => isTrue trivial
  | .deferOff => isTrue trivial

/-- netaddr on the addresses of the examples: IPv4 addresses without a prefix. -/
def exampleNet : Netaddr where
  eui mac := mac
  version _ := .ipv4
  network ip := ip ++ "/32".toList
  cidr ip := ip ++ "/32".toList
  lla _ := "fe80::f816:3eff:fe00:1".toList

/-- The hybrid driver of the Open vSwitch agent, with ipset. -/
def exampleConfig : Config := ⟨"neutron-openvswitch-agent".toList, true, true, false, exampleNet⟩

def examplePort : Port :=
  ⟨"0f1e2d3c-4b5a-6978-8796-a5b4c3d2e1f0".toList, none, "fa:16:3e:00:00:01".toList, ["10.0.0.3".toList], none,
    ["web".toList], []⟩

/-- Ingress from the members of another group. -/
def exampleRule : SgRule :=
  ⟨.ingress, .ipv4, some "tcp".toList, some 80, some 80, none, none, none, none, some "peers".toList⟩

/-- The port was prepared, and a deferred section with new rules and members is open. -/
def openSection : Driver :=
  (replay (step exampleConfig) (OpNamed exampleConfig) (startDriver exampleConfig [])
    [.prepare examplePort, .deferOn, .updateRules "web".toList [exampleRule],
      .updateMembers "peers".toList [(.ipv4, ["10.0.0.4".toList])], .update examplePort]).get (by decide +kernel)

/-- The section was closed. -/
def closedSection : Driver := (step exampleConfig openSection .deferOff).get (by decide +kernel)

/-- The rules of the section are in the tables when it is closed. -/
theorem updates_rebuild_section :
    rebuild exampleConfig closedSection = .ok closedSection.tables ∧ closedSection.tables ≠ openSection.tables := by
  have hreach : Reach (step exampleConfig) (OpNamed exampleConfig) (startDriver exampleConfig []) openSection :=
    Reach.of_replay (Option.some_get _).symm
  have hclose : step exampleConfig openSection .deferOff = some closedSection := (Option.some_get _).symm
  have hnamed : OpNamed exampleConfig openSection .deferOff := trivial
  -- the section is replayed once for all that is read off it
  obtain ⟨hopen, hclosed, hchanged, hown, hempty⟩ : openSection.deferApply ≠ none ∧ closedSection.deferApply = none ∧
      closedSection.tables ≠ openSection.tables ∧
      (∀ port ∈ openSection.filteredPorts.map Prod.snd, ∀ rule ∈ port.securityGroupRules, given rule.remoteGroupId = none) ∧
      ∀ pre ∈ openSection.deferApply, pre.preSgMembers = [] := by decide +kernel
  refine ⟨((updates_rebuild hreach hnamed hclose hclosed).1 hopen).2 fun _ pre hpre => ⟨hown, fun ethertype g hg => ?_⟩, hchanged⟩
  rw [hempty pre hpre] at hg
  exact nomatch hg

/-- The rules were given outside a deferred section, after the port. -/
def lateRules : Driver :=
  (replay (step exampleConfig) (OpNamed exampleConfig) (startDriver exampleConfig [])
    [.prepare examplePort, .updateMembers "peers".toList [(.ipv4, ["10.0.0.4".toList])],
      .updateRules "web".toList [exampleRule]]).get (by decide +kernel)

/-- New rules outside a deferred section are not in the tables until the next operation on a port. -/
theorem updateRules_not_rebuilt :
    Reach (step exampleConfig) (OpNamed exampleConfig) (startDriver exampleConfig []) lateRules ∧
      lateRules.deferApply = none ∧ rebuild exampleConfig lateRules ≠ .ok lateRules.tables := by
  refine ⟨Reach.of_replay (Option.some_get _).symm, ?_⟩
  decide +kernel

end Updates

end Mitaka.Neutron.Firewall
