/-
  Subject: neutron/agent/linux/iptables_firewall.py: the chains and rules of a port, made
           from the port and the security group data.

  What follows about a set-up needs little of the texts: every rule stands in a chain of a
  port or of the security groups, or jumps to one, or is the accept rule of a port without
  port security.
-/
import Mitaka.Neutron.FirewallTables
import Mitaka.Lib.Fallible

namespace Mitaka.Neutron.Firewall

open IptablesTable List

/-! ## 1. Ports and security groups -/

inductive Direction
  | ingress
  | egress
  deriving DecidableEq

/-- The keys of `CHAIN_NAME_PREFIX`. -/
inductive ChainKind
  | direction (d : Direction)
  | spoofFilter
  deriving DecidableEq

inductive Ethertype
  | ipv4
  | ipv6
  deriving DecidableEq

def Ethertype.text : Ethertype → Line
  | .ipv4 => "IPv4".toList
  | .ipv6 => "IPv6".toList

/-- A security group rule as the server sends it. -/
structure SgRule where
  direction : Direction
  ethertype : Ethertype
  protocol : Option Line
  portRangeMin : Option ℕ
  portRangeMax : Option ℕ
  sourcePortRangeMin : Option ℕ
  sourcePortRangeMax : Option ℕ
  sourceIpPrefix : Option Line
  destIpPrefix : Option Line
  remoteGroupId : Option Line
  deriving DecidableEq

structure AddressPair where
  macAddress : Line
  ipAddress : Line
  deriving DecidableEq

structure Port where
  device : Line
  portSecurityEnabled : Option Bool
  macAddress : Line
  fixedIps : List Line
  allowedAddressPairs : Option (List AddressPair)
  securityGroups : List Line
  securityGroupRules : List SgRule
  deriving DecidableEq

/-- `port_sec_enabled`. -/
def portSecEnabled (port : Port) : Bool := port.portSecurityEnabled.getD true

/-- What the driver takes from netaddr. -/
structure Netaddr where
  /-- `str(netaddr.EUI(mac, dialect=mac_iptables))` -/
  eui : Line → Line
  /-- `netaddr.IPNetwork(ip).version` -/
  version : Line → Ethertype
  /-- `str(netaddr.IPNetwork(ip))` -/
  network : Line → Line
  /-- `str(netaddr.IPNetwork(ip).cidr)` -/
  cidr : Line → Line
  /-- the link-local address of `get_ipv6_addr_by_EUI64` -/
  lla : Line → Line

structure Config where
  /-- the base name of the agent's program -/
  baseName : Line
  /-- the driver is `OVSHybridIptablesFirewallDriver` -/
  hybrid : Bool
  enableIpset : Bool
  commentIptablesRules : Bool
  net : Netaddr

/-- `wrap_name` of the tables. -/
def Config.wrapName (cfg : Config) : Line := getBinaryName cfg.baseName

theorem Config.wrapName_no_blank (cfg : Config) : ' ' ∉ cfg.wrapName := by
  intro h
  obtain ⟨c, _, hc⟩ := mem_map.mp h
  split_ifs at hc with hb
  · exact absurd hc (by decide)
  · exact hb hc

/-- The security group data of the driver; of the ipset manager only which sets it knows. -/
structure SecurityGroups where
  sgRules : Dict Line (List SgRule)
  sgMembers : Dict Line (Dict Ethertype (List Line))
  ipsets : List Line
  deriving DecidableEq

/-- `IpsetManager.get_name`. -/
def ipsetName (id : Line) (ethertype : Ethertype) : Line := ('N' :: (ethertype.text ++ id)).take 29

/-- A string that Python takes for true. -/
def given (s : Option Line) : Option Line := s.filter fun s => s ≠ []

def decimal (n : ℕ) : Line := (toString n).toList

/-! ## 2. Arguments of a rule -/

/-- `_protocol_arg`. -/
def protocolArg (protocol : Option Line) : List Line :=
  match given protocol with
  | none => []
  | some protocol => ["-p".toList, if protocol = "icmpv6".toList then "ipv6-icmp".toList else protocol]

/-- `protocol_modules` of `_port_arg`. -/
def protocolModule (protocol : Line) : Option Line :=
  if protocol = "udp".toList then some "udp".toList
  else if protocol = "tcp".toList then some "tcp".toList
  else if protocol = "icmp".toList then some "icmp".toList
  else if protocol = "ipv6-icmp".toList then some "icmp6".toList
  else none

/-- `_port_arg`. -/
def portArg (direction : Line) (protocol : Option Line) (portRangeMin portRangeMax : Option ℕ) : List Line :=
  match protocol.bind fun p => (protocolModule p).map (p, ·), portRangeMin with
  | some (protocol, module), some min =>
    let args := ["-m".toList, module]
    if protocol = "icmp".toList ∨ protocol = "ipv6-icmp".toList then
      let protocolType := if protocol = "ipv6-icmp".toList then "icmpv6".toList else "icmp".toList
      let code := match portRangeMax with
        | some max => '/' :: decimal max
        | none => []
      args ++ ["--".toList ++ protocolType ++ "-type".toList, decimal min ++ code]
    else if portRangeMax = some min then args ++ ["--".toList ++ direction, decimal min]
    else
      let max := match portRangeMax with
        | some max => decimal max
        | none => "None".toList
      args ++ ["-m".toList, "multiport".toList, "--".toList ++ direction ++ "s".toList, decimal min ++ ':' :: max]
  | _, _ => []

/-- `_ip_prefix_arg`. -/
def ipPrefixArg (net : Netaddr) (direction : Line) (ipPrefix : Option Line) : List Line :=
  match given ipPrefix with
  | none => []
  | some p =>
    if '/' ∉ p then ['-' :: direction, net.network p]
    else if "/0".toList.isSuffixOf p then []
    else ['-' :: direction, p]

/-- `_generate_protocol_and_port_args`. -/
def generateProtocolAndPortArgs (sgRule : SgRule) : List Line :=
  protocolArg sgRule.protocol ++
    portArg "sport".toList sgRule.protocol sgRule.sourcePortRangeMin sgRule.sourcePortRangeMax ++
    portArg "dport".toList sgRule.protocol sgRule.portRangeMin sgRule.portRangeMax

/-- `_generate_plain_rule_args`. -/
def generatePlainRuleArgs (net : Netaddr) (sgRule : SgRule) : List Line :=
  ipPrefixArg net "s".toList sgRule.sourceIpPrefix ++ ipPrefixArg net "d".toList sgRule.destIpPrefix ++
    generateProtocolAndPortArgs sgRule ++ ["-j RETURN".toList]

/-- `IPSET_DIRECTION`. -/
def ipsetDirection : Direction → Line
  | .ingress => "src".toList
  | .egress => "dst".toList

/-- `_generate_ipset_rule_args`; the sets of empty groups are not created. -/
def generateIpsetRuleArgs (sg : SecurityGroups) (sgRule : SgRule) (remoteGid : Line) : Option (List Line) :=
  let name := ipsetName remoteGid sgRule.ethertype
  if name ∉ sg.ipsets then none
  else
    some (generateProtocolAndPortArgs sgRule ++
      ["-m set".toList, "--match-set".toList, name, ipsetDirection sgRule.direction] ++ ["-j RETURN".toList])

section Rules

variable (cfg : Config)

/-- `_convert_sg_rule_to_iptables_args`. -/
def convertSgRuleToIptablesArgs (sg : SecurityGroups) (sgRule : SgRule) : Option (List Line) :=
  match given sgRule.remoteGroupId with
  | some remoteGid =>
    if cfg.enableIpset then generateIpsetRuleArgs sg sgRule remoteGid
    else some (generatePlainRuleArgs cfg.net sgRule)
  | none => some (generatePlainRuleArgs cfg.net sgRule)

def comment (rule comment : String) : Line := commentRule cfg.commentIptablesRules rule.toList comment.toList

/-- `_convert_sgr_to_iptables_rules`: a command that was there already is left out. -/
def convertSgrToIptablesRules (sg : SecurityGroups) (securityGroupRules : List SgRule) : List Line :=
  let commands := (securityGroupRules.filterMap (convertSgRuleToIptablesArgs cfg sg)).map (intercalate [' '])
  [comment cfg "-m state --state RELATED,ESTABLISHED -j RETURN"
      "Direct packets associated with a known session to the RETURN chain."] ++
    commands.foldl (fun rules command => if command ∈ rules then rules else rules ++ [command]) [] ++
    [comment cfg "-m state --state INVALID -j DROP"
        "Drop packets that appear related to an existing connection (e.g. TCP ACK/FIN) but do not have an entry in conntrack.",
      comment cfg "-j $sg-fallback" "Send unmatched traffic to the fallback chain."]

/-- `_expand_sg_rule_with_remote_ips`. -/
def expandSgRuleWithRemoteIps (sg : SecurityGroups) (rule : SgRule) (port : Port) (direction : Direction) : List SgRule :=
  match given rule.remoteGroupId with
  | some remoteGroupId =>
    let members := (((sg.sgMembers.get remoteGroupId).getD []).get rule.ethertype).getD []
    (members.filter (· ∉ port.fixedIps)).map fun ip =>
      match direction with
      | .ingress => { rule with sourceIpPrefix := some (cfg.net.cidr ip) }
      | .egress => { rule with destIpPrefix := some (cfg.net.cidr ip) }
  | none => [rule]

/-- `_select_sg_rules_for_port`. -/
def selectSgRulesForPort (sg : SecurityGroups) (port : Port) (direction : Direction) : List SgRule :=
  port.securityGroups.flatMap fun sgId =>
    ((sg.sgRules.get sgId).getD []).flatMap fun rule =>
      if rule.direction = direction then
        if cfg.enableIpset then [rule] else expandSgRuleWithRemoteIps cfg sg rule port direction
      else []

/-- `_select_sgr_by_direction`. -/
def selectSgrByDirection (port : Port) (direction : Direction) : List SgRule :=
  port.securityGroupRules.filter (·.direction = direction)

/-- `_split_sgr_by_ethertype`. The source writes the new protocol into the rule it was given; a second pass finds it
there and changes nothing. -/
def splitSgrByEthertype (securityGroupRules : List SgRule) : List SgRule × List SgRule :=
  (securityGroupRules.filter (·.ethertype = .ipv4),
    (securityGroupRules.filter (·.ethertype = .ipv6)).map fun rule =>
      if rule.protocol = some "icmp".toList then { rule with protocol := some "ipv6-icmp".toList } else rule)

/-! ## 3. Fixed rules -/

/-- `_build_ipv4v6_mac_ip_list`, with the two lists of pairs as they stand. -/
def buildIpv4v6MacIpList (mac ipAddress : Line) (pairs : List (Line × Option Line) × List (Line × Option Line)) :
    List (Line × Option Line) × List (Line × Option Line) :=
  let mac := cfg.net.eui mac
  match cfg.net.version ipAddress with
  | .ipv4 => (pairs.1 ++ [(mac, some ipAddress)], pairs.2)
  | .ipv6 => (pairs.1, pairs.2 ++ [(mac, some ipAddress), (mac, some (cfg.net.lla mac))])

/-- The pairs of `_spoofing_rule` for the two families. -/
def macIpPairs (port : Port) : List (Line × Option Line) × List (Line × Option Line) :=
  let allowed := (port.allowedAddressPairs.getD []).map fun p => (p.macAddress, p.ipAddress)
  let pairs := (allowed ++ port.fixedIps.map (port.macAddress, ·)).foldl
    (fun pairs p => buildIpv4v6MacIpList cfg p.1 p.2 pairs) ([], [])
  if port.fixedIps = [] then (pairs.1 ++ [(port.macAddress, none)], pairs.2 ++ [(port.macAddress, none)]) else pairs

/-- `_port_chain_name` of the two drivers. -/
def portChainName (port : Port) (kind : ChainKind) : Line :=
  let c := match kind with
    | .direction .ingress => 'i'
    | .direction .egress => 'o'
    | .spoofFilter => 's'
  getChainName (c :: (if cfg.hybrid then port.device else port.device.drop 3)) true

/-- The text of a rule of the spoof filter. -/
def pairRule : Line × Option Line → Line
  | (mac, none) => "-m mac --mac-source ".toList ++ mac.map Char.toUpper ++ " -j RETURN".toList
  | (mac, some ip) =>
    "-s ".toList ++ cfg.net.network ip ++ " -m mac --mac-source ".toList ++ mac.map Char.toUpper ++ " -j RETURN".toList

/-- `_setup_spoof_filter_chain`: the table, and the rules with the jump to the chain. -/
def setupSpoofFilterChain (port : Port) (table : IptablesTable) (pairs : List (Line × Option Line))
    (rules : List Line) : Except Error (IptablesTable × List Line) :=
  if pairs = [] then .ok (table, rules)
  else do
    let chainName := portChainName cfg port .spoofFilter
    let table := table.addChain chainName true
    let table ← pairs.foldlM (fun table pair =>
      table.addRule cfg.wrapName chainName (pairRule cfg pair) true false
        (some "Allow traffic from defined IP/MAC pairs.".toList)) table
    let table ← table.addRule cfg.wrapName chainName "-j DROP".toList true false
      (some "Drop traffic without an IP/MAC allow rule.".toList)
    .ok (table, rules ++ ["-j $".toList ++ chainName])

/-- `_accept_inbound_icmpv6`. -/
def acceptInboundIcmpv6 : List Line :=
  [130, 131, 132, 135, 136].map fun t => "-p ipv6-icmp -m icmp6 --icmpv6-type ".toList ++ decimal t ++ " -j RETURN".toList

/-- The fixed rules `_spoofing_rule` puts before the spoof filter. -/
def unspecifiedSourceRules : List Line × List Line :=
  ([comment cfg "-s 0.0.0.0/32 -d 255.255.255.255/32 -p udp -m udp --sport 68 --dport 67 -j RETURN"
      "Allow DHCP client traffic."],
    [131, 135, 143].map fun t => commentRule cfg.commentIptablesRules
      ("-s ::/128 -d ff02::/16 -p ipv6-icmp -m icmp6 --icmpv6-type ".toList ++ decimal t ++ " -j RETURN".toList)
      "Allow IPv6 ICMP traffic.".toList)

/-- The fixed rules `_spoofing_rule` puts behind it, and those of `_drop_dhcp_rule`. -/
def verifiedSourceRules : List Line × List Line :=
  ([comment cfg "-p udp -m udp --sport 68 --dport 67 -j RETURN" "Allow DHCP client traffic.",
      comment cfg "-p udp -m udp --sport 67 -m udp --dport 68 -j DROP" "Prevent DHCP Spoofing by VM."],
    [comment cfg "-p ipv6-icmp -m icmp6 --icmpv6-type 134 -j DROP" "Drop IPv6 Router Advts from VM Instance.",
      comment cfg "-p ipv6-icmp -j RETURN" "Allow IPv6 ICMP traffic.",
      comment cfg "-p udp -m udp --sport 546 -m udp --dport 547 -j RETURN" "Allow DHCP client traffic.",
      comment cfg "-p udp -m udp --sport 547 -m udp --dport 546 -j DROP" "Prevent DHCP Spoofing by VM."])

end Rules

/-! ## 4. The names of the chains -/

/-- What a port id consists of. -/
def isPortIdChar (c : Char) : Bool := c ∈ "0123456789abcdef-".toList

/-- The part of a device name that goes into the names of chains. -/
def Config.suffix (cfg : Config) (port : Port) : Line := if cfg.hybrid then port.device else port.device.drop 3

/-- The device is named as the agents name it: a port id, or a prefix of three characters and what an interface name
has room for of one. -/
structure WellNamed (cfg : Config) (port : Port) : Prop where
  long : 10 ≤ (cfg.suffix port).length
  chars : (cfg.suffix port).all isPortIdChar = true

section Names

variable {cfg : Config} {port : Port}

theorem portChainName_eq (cfg : Config) (port : Port) (kind : ChainKind) :
    ∃ c ∈ ['i', 'o', 's'], portChainName cfg port kind = c :: (cfg.suffix port).take 10 := by
  match kind with
  | .direction .ingress => exact ⟨'i', by simp, rfl⟩
  | .direction .egress => exact ⟨'o', by simp, rfl⟩
  | .spoofFilter => exact ⟨'s', by simp, rfl⟩

theorem WellNamed.removable (h : WellNamed cfg port) (kind : ChainKind) : Removable (portChainName cfg port kind) := by
  obtain ⟨c, _, e⟩ := portChainName_eq cfg port kind
  have hlen : (portChainName cfg port kind).length = 11 := by
    rw [e, length_cons, length_take, min_eq_left h.long]
  refine ⟨hlen.le, by omega, ?_, fun hp => ?_⟩
  · intro hf
    rw [e] at hf
    -- the second character of the fallback chain is in no port id
    have hg : 'g' ∈ (cfg.suffix port).take 10 := by
      rw [(cons.inj hf).2]
      exact mem_cons_self
    exact absurd (all_eq_true.mp h.chars 'g' (mem_of_mem_take hg)) (by decide)
  · have := hp.length_le
    rw [hlen] at this
    exact absurd this (by decide)

theorem WellNamed.no_blank (h : WellNamed cfg port) (kind : ChainKind) : ' ' ∉ portChainName cfg port kind := by
  obtain ⟨c, hc, e⟩ := portChainName_eq cfg port kind
  rw [e, mem_cons, not_or]
  refine ⟨?_, fun hmem => absurd (all_eq_true.mp h.chars ' ' (mem_of_mem_take hmem)) (by decide)⟩
  rintro rfl
  exact absurd hc (by decide)

theorem WellNamed.getLast (h : WellNamed cfg port) (kind : ChainKind) :
    (portChainName cfg port kind).getLast? ≠ some 'T' := by
  obtain ⟨c, hc, e⟩ := portChainName_eq cfg port kind
  intro hlast
  have hmem := mem_of_getLast? hlast
  rw [e, mem_cons] at hmem
  rcases hmem with rfl | hmem
  · exact absurd hc (by decide)
  · exact absurd (all_eq_true.mp h.chars 'T' (mem_of_mem_take hmem)) (by decide)

end Names

end Mitaka.Neutron.Firewall
