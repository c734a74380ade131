/-
  Subject: neutron/agent/linux/iptables_firewall.py: a teardown undoes a set-up, and a
           set-up repeats itself.

  A set-up never changes the zone of a port the driver has, so a second set-up from the same
  start with the zones the first one left makes the same rules (`setupChainsApply_rerun`).
-/
import Mitaka.Neutron.FirewallSetup

namespace Mitaka.Neutron.Firewall

open Fallible IptablesTable List

/-! ## 1. Zones that are kept -/

section Zones

variable {live : List Port} {zones zones' zones'' : Dict Line ℕ}

/-- The ports of the driver that have a zone keep it. -/
def ZonesLe (live : List Port) (zones zones' : Dict Line ℕ) : Prop :=
  ∀ port ∈ live, ∀ zone, zones.get (shortPortId port.device) = some zone →
    zones'.get (shortPortId port.device) = some zone

theorem ZonesLe.refl (live : List Port) (zones : Dict Line ℕ) : ZonesLe live zones zones := fun _ _ _ h => h

theorem ZonesLe.trans (h : ZonesLe live zones zones') (h' : ZonesLe live zones' zones'') : ZonesLe live zones zones'' :=
  fun port hport zone hz => h' port hport zone (h port hport zone hz)

theorem get_freeZones {port : Port} (hport : port ∈ live) :
    (freeZonesFromRemovedPorts live zones).get (shortPortId port.device) = zones.get (shortPortId port.device) := by
  exact Dict.get_filter_of_keep zones (· ∈ live.map fun port => shortPortId port.device) (List.mem_map_of_mem hport)

theorem zonesLe_set {short : Line} (h : zones.get short = none) (hle : ZonesLe live zones zones') (zone : ℕ) :
    ZonesLe live zones (zones'.set short zone) := by
  intro port hport v hv
  have hne : short ≠ shortPortId port.device := by
    rintro rfl
    rw [h] at hv
    exact nomatch hv
  rw [Dict.get_set, if_neg hne]
  exact hle port hport v hv

theorem getDeviceZone_spec {portId : Line} {zone : ℕ} (h : getDeviceZone live zones portId = .ok (zone, zones')) :
    zones'.get (shortPortId portId) = some zone ∧ ZonesLe live zones zones' := by
  unfold getDeviceZone at h
  split at h
  · next zone' hz =>
    cases h
    exact ⟨hz, .refl _ _⟩
  · next hz =>
    unfold generateDeviceZone at h
    split at h
    · cases h
      exact ⟨by rw [Dict.get_set, if_pos rfl], zonesLe_set hz (.refl _ _) _⟩
    · dsimp only at h
      split at h
      · cases h
        refine ⟨by rw [Dict.get_set, if_pos rfl], zonesLe_set hz (fun port hport v hv => ?_) _⟩
        rw [get_freeZones hport]
        exact hv
      · cases h

theorem getDeviceZone_known {portId : Line} {zone : ℕ} (h : zones.get (shortPortId portId) = some zone) :
    getDeviceZone live zones portId = .ok (zone, zones) := by
  rw [getDeviceZone, h]

end Zones

/-! ## 2. A set-up repeats itself -/

section Steady

variable {cfg : Config} {live : List Port}

/-- A step that keeps the zones of the ports and does the same again with any zones that agree with those it left. -/
structure Steady (live : List Port) (f : Tables → Except Error Tables) : Prop where
  keeps : ∀ ts ts', f ts = .ok ts' → ZonesLe live ts.deviceZoneMap ts'.deviceZoneMap
  rerun : ∀ ts ts', f ts = .ok ts' → ∀ zones, ZonesLe live ts'.deviceZoneMap zones →
    f { ts with deviceZoneMap := zones } = .ok { ts' with deviceZoneMap := zones }

theorem Steady.bind {f g : Tables → Except Error Tables} (hf : Steady live f) (hg : Steady live g) :
    Steady live fun ts => f ts >>= g where
  keeps ts ts' h := by
    obtain ⟨ts₁, h₁, h₂⟩ := bind_eq_ok.mp h
    exact (hf.keeps ts ts₁ h₁).trans (hg.keeps ts₁ ts' h₂)
  rerun ts ts' h zones hz := by
    obtain ⟨ts₁, h₁, h₂⟩ := bind_eq_ok.mp h
    have hr := hf.rerun ts ts₁ h₁ zones ((hg.keeps ts₁ ts' h₂).trans hz)
    exact bind_eq_ok.mpr ⟨_, hr, hg.rerun ts₁ ts' h₂ zones hz⟩

theorem Steady.foldlM {α : Type} {g : Tables → α → Except Error Tables} {l : List α}
    (h : ∀ a ∈ l, Steady live fun ts => g ts a) : Steady live fun ts => l.foldlM g ts := by
  induction l with
  | nil =>
    refine ⟨fun ts ts' e => ?_, fun ts ts' e zones _ => ?_⟩
    · cases e
      exact .refl _ _
    · cases e
      rfl
  | cons a l ih =>
    have hl := (h a mem_cons_self).bind (ih fun b hb => h b (mem_cons_of_mem _ hb))
    simpa only [foldlM_cons] using hl

/-- A step that neither reads nor writes the zones. -/
def FilterOnly (f : Tables → Except Error Tables) : Prop :=
  ∀ ts ts', f ts = .ok ts' → (ts'.raw4 = ts.raw4 ∧ ts'.raw6 = ts.raw6 ∧ ts'.deviceZoneMap = ts.deviceZoneMap) ∧
    ∀ zones, f { ts with deviceZoneMap := zones } = .ok { ts' with deviceZoneMap := zones }

theorem FilterOnly.steady {f : Tables → Except Error Tables} (h : FilterOnly f) : Steady live f where
  keeps ts ts' e := (h ts ts' e).1.2.2 ▸ .refl _ _
  rerun ts ts' e zones _ := (h ts ts' e).2 zones

theorem FilterOnly.bind {f g : Tables → Except Error Tables} (hf : FilterOnly f) (hg : FilterOnly g) :
    FilterOnly fun ts => f ts >>= g := by
  intro ts ts' h
  obtain ⟨ts₁, h₁, h₂⟩ := bind_eq_ok.mp h
  obtain ⟨⟨r4, r6, hz⟩, hr⟩ := hf ts ts₁ h₁
  obtain ⟨⟨r4', r6', hz'⟩, hr'⟩ := hg ts₁ ts' h₂
  exact ⟨⟨r4'.trans r4, r6'.trans r6, hz'.trans hz⟩, fun zones => bind_eq_ok.mpr ⟨_, hr zones, hr' zones⟩⟩

theorem FilterOnly.foldlM {α : Type} {g : Tables → α → Except Error Tables} {l : List α}
    (h : ∀ a ∈ l, FilterOnly fun ts => g ts a) : FilterOnly fun ts => l.foldlM g ts := by
  induction l with
  | nil =>
    intro ts ts' e
    cases e
    exact ⟨⟨rfl, rfl, rfl⟩, fun _ => rfl⟩
  | cons a l ih =>
    have hl := (h a mem_cons_self).bind (ih fun b hb => h b (mem_cons_of_mem _ hb))
    simpa only [foldlM_cons] using hl

theorem addRulesToChainV4V6_filterOnly (chainName : Line) (ipv4Rules ipv6Rules : List Line) (comment : Option Line) :
    FilterOnly (addRulesToChainV4V6 cfg chainName ipv4Rules ipv6Rules comment) := by
  intro ts ts' e
  obtain ⟨filter4, h4, filter6, h6, rfl⟩ := addRulesToChainV4V6_eq_ok.mp e
  exact ⟨⟨rfl, rfl, rfl⟩, fun zones => addRulesToChainV4V6_eq_ok.mpr ⟨filter4, h4, filter6, h6, rfl⟩⟩

theorem addChainByName_filterOnly (chainName : Line) : FilterOnly fun ts => .ok (addChainByNameV4V6 chainName ts) := by
  intro ts ts' e
  cases e
  exact ⟨⟨rfl, rfl, rfl⟩, fun _ => rfl⟩

theorem addChainFilter_filterOnly (port : Port) (direction : Direction) :
    FilterOnly (addChainFilter cfg port direction) := by
  intro ts ts' e
  simp only [addChainFilter, bind_eq_ok] at e ⊢
  obtain ⟨ts₁, e₁, ts₂, e₂, e₃⟩ := e
  obtain ⟨f₁, r₁⟩ := addRulesToChainV4V6_filterOnly _ _ _ _ _ _ e₁
  obtain ⟨f₂, r₂⟩ := addRulesToChainV4V6_filterOnly _ _ _ _ _ _ e₂
  split_ifs at e₃ ⊢ with hd
  · obtain ⟨f₃, r₃⟩ := addRulesToChainV4V6_filterOnly _ _ _ _ _ _ e₃
    exact ⟨⟨f₃.1.trans (f₂.1.trans f₁.1), f₃.2.1.trans (f₂.2.1.trans f₁.2.1), f₃.2.2.trans (f₂.2.2.trans f₁.2.2)⟩,
      fun zones => ⟨_, r₁ zones, _, r₂ zones, r₃ zones⟩⟩
  · cases e₃
    exact ⟨⟨f₂.1.trans f₁.1, f₂.2.1.trans f₁.2.1, f₂.2.2.trans f₁.2.2⟩,
      fun zones => ⟨_, r₁ zones, _, r₂ zones, rfl⟩⟩

theorem addRulesBySecurityGroup_filterOnly (sg : SecurityGroups) (port : Port) (direction : Direction) :
    FilterOnly (addRulesBySecurityGroup cfg sg port direction) := by
  intro ts ts' e
  simp only [addRulesBySecurityGroup, bind_eq_ok] at e ⊢
  obtain ⟨⟨ts₁, rules4, rules6⟩, e₁, e₂⟩ := e
  obtain ⟨f₂, r₂⟩ := addRulesToChainV4V6_filterOnly _ _ _ _ _ _ e₂
  have h₁ : (ts₁.raw4 = ts.raw4 ∧ ts₁.raw6 = ts.raw6 ∧ ts₁.deviceZoneMap = ts.deviceZoneMap) ∧
      ∀ zones, addFixedRules cfg port direction { ts with deviceZoneMap := zones } =
        .ok ({ ts₁ with deviceZoneMap := zones }, rules4, rules6) := by
    cases direction with
    | ingress =>
      cases e₁
      exact ⟨⟨rfl, rfl, rfl⟩, fun _ => rfl⟩
    | egress =>
      simp only [addFixedRules, addFixedEgressRules, bind_eq_ok, Except.ok.injEq, Prod.mk.injEq] at e₁ ⊢
      obtain ⟨⟨f4, r4⟩, h4, ⟨f6, r6⟩, h6, rfl, h4', h6'⟩ := e₁
      exact ⟨⟨rfl, rfl, rfl⟩, fun zones => ⟨_, h4, _, h6, rfl, h4', h6'⟩⟩
  exact ⟨⟨f₂.1.trans h₁.1.1, f₂.2.1.trans h₁.1.2.1, f₂.2.2.trans h₁.1.2.2⟩, fun zones => ⟨_, h₁.2 zones, r₂ zones⟩⟩

theorem addAcceptRulePortSec_filterOnly (port : Port) (direction : Direction) :
    FilterOnly (addAcceptRulePortSec cfg port direction) :=
  FilterOnly.foldlM fun _ _ => addRulesToChainV4V6_filterOnly _ _ _ _

theorem addRawChainRules_steady {port : Port} (hport : port ∈ live) (direction : Direction) :
    Steady live (addRawChainRules cfg live port direction) := by
  constructor
  · intro ts ts' e
    simp only [addRawChainRules, bind_eq_ok, Except.ok.injEq] at e
    obtain ⟨⟨zone, zones⟩, hz, raw4, _, raw6, _, rfl⟩ := e
    exact (getDeviceZone_spec hz).2
  · intro ts ts' e zones' hle
    simp only [addRawChainRules, bind_eq_ok, Except.ok.injEq] at e ⊢
    obtain ⟨⟨zone, zones⟩, hz, raw4, h4, raw6, h6, rfl⟩ := e
    have hknown := hle port hport zone (getDeviceZone_spec hz).1
    exact ⟨_, getDeviceZone_known hknown, raw4, h4, raw6, h6, rfl⟩

theorem setupChain_steady {port : Port} (hport : port ∈ live) (sg : SecurityGroups) (direction : Direction) :
    Steady live (setupChain cfg live sg port direction) := by
  have hadd : Steady live (addChain cfg live port direction) := by
    by_cases hh : cfg.hybrid = true
    · have heq : addChain cfg live port direction =
          fun ts => addChainFilter cfg port direction ts >>= addRawChainRules cfg live port direction := by
        funext ts
        simp only [addChain, hh, if_true]
      rw [heq]
      exact (addChainFilter_filterOnly port direction).steady.bind (addRawChainRules_steady hport direction)
    · have heq : addChain cfg live port direction = fun ts => addChainFilter cfg port direction ts >>= .ok := by
        funext ts
        simp only [addChain, hh, Bool.false_eq_true, if_false]
      have hok : FilterOnly .ok := by
        intro ts ts' e
        cases e
        exact ⟨⟨rfl, rfl, rfl⟩, fun _ => rfl⟩
      rw [heq]
      exact ((addChainFilter_filterOnly port direction).bind hok).steady
  exact hadd.bind (addRulesBySecurityGroup_filterOnly sg port direction).steady

theorem mem_sortedPorts {ports : Dict Line Port} {port : Port} (h : port ∈ sortedPorts ports) :
    port ∈ ports.map Prod.snd := by
  obtain ⟨k, _, hk⟩ := mem_filterMap.mp h
  exact List.mem_map.mpr ⟨(k, port), Dict.mem_of_get hk, rfl⟩

theorem setupChainsApply_steady (sg : SecurityGroups) {ports : Dict Line Port} (unfilteredPorts : Dict Line Port)
    (hlive : ports.map Prod.snd ⊆ live) : Steady live (setupChainsApply cfg live sg ports unfilteredPorts) := by
  have hports : Steady live fun ts => (sortedPorts ports).foldlM (fun ts port => do
      let ts ← setupChain cfg live sg port .ingress ts
      setupChain cfg live sg port .egress ts) ts :=
    Steady.foldlM fun port hport =>
      (setupChain_steady (hlive (mem_sortedPorts hport)) sg .ingress).bind
        (setupChain_steady (hlive (mem_sortedPorts hport)) sg .egress)
  have haccept : FilterOnly fun ts => (unfilteredPorts.map Prod.snd).foldlM (fun ts port => do
      let ts ← addAcceptRulePortSec cfg port .ingress ts
      addAcceptRulePortSec cfg port .egress ts) ts :=
    FilterOnly.foldlM fun port _ => (addAcceptRulePortSec_filterOnly port .ingress).bind
      (addAcceptRulePortSec_filterOnly port .egress)
  exact (addChainByName_filterOnly sgChain).steady.bind
    (hports.bind ((addRulesToChainV4V6_filterOnly _ _ _ _).steady.bind haccept.steady))

end Steady

/-! ## 3. The raw table of the hybrid driver -/

section Raw

variable {cfg : Config} {live : List Port}

/-- The end of a port at which a raw rule stands. -/
abbrev PortEnd := Port × Direction

/-- The raw rule of one end of a port. -/
def rawRule (cfg : Config) (zones : Dict Line ℕ) (e : PortEnd) : IptablesRule :=
  makeRule cfg.wrapName "PREROUTING".toList
    (getJumpRule cfg e.1 e.2 ((zones.get (shortPortId e.1.device)).getD 0)) true false none

/-- The raw table of the start with rules appended. -/
def rawTable (cfg : Config) (rules : List IptablesRule) : IptablesTable :=
  ⟨startRaw cfg.wrapName ++ rules, ["PREROUTING".toList, "OUTPUT".toList], []⟩

/-- The ends of the ports that have raw rules. -/
def portEnds (cfg : Config) (ports : List Port) : List PortEnd :=
  if cfg.hybrid then ports.flatMap fun port => [(port, .ingress), (port, .egress)] else []

/-- The raw tables hold the rules of these ends, whose ports have their zones. -/
structure RawOf (cfg : Config) (ends : List PortEnd) (ts : Tables) : Prop where
  raw4 : ts.raw4 = rawTable cfg (ends.map (rawRule cfg ts.deviceZoneMap))
  raw6 : ts.raw6 = rawTable cfg (ends.map (rawRule cfg ts.deviceZoneMap))
  known : ∀ e ∈ ends, (ts.deviceZoneMap.get (shortPortId e.1.device)).isSome = true

variable {ends : List PortEnd}

theorem rawRule_of_zonesLe (cfg : Config) {zones zones' : Dict Line ℕ} (h : ZonesLe live zones zones')
    (hlive : ∀ e ∈ ends, e.1 ∈ live) (hknown : ∀ e ∈ ends, (zones.get (shortPortId e.1.device)).isSome = true) :
    ends.map (rawRule cfg zones) = ends.map (rawRule cfg zones') ∧
      ∀ e ∈ ends, (zones'.get (shortPortId e.1.device)).isSome = true := by
  have hget (e : PortEnd) (he : e ∈ ends) :
      ∃ zone, zones.get (shortPortId e.1.device) = some zone ∧ zones'.get (shortPortId e.1.device) = some zone := by
    obtain ⟨zone, hz⟩ := Option.isSome_iff_exists.mp (hknown e he)
    exact ⟨zone, hz, h e.1 (hlive e he) zone hz⟩
  constructor
  · refine map_congr_left fun e he => ?_
    obtain ⟨zone, hz, hz'⟩ := hget e he
    rw [rawRule, rawRule, hz, hz']
  · intro e he
    obtain ⟨zone, _, hz'⟩ := hget e he
    rw [hz']
    rfl

theorem RawOf.frame {ts ts' : Tables} (h : RawOf cfg ends ts)
    (hf : ts'.raw4 = ts.raw4 ∧ ts'.raw6 = ts.raw6 ∧ ts'.deviceZoneMap = ts.deviceZoneMap) : RawOf cfg ends ts' := by
  obtain ⟨h4, h6, hz⟩ := hf
  exact ⟨by rw [h4, hz]; exact h.raw4, by rw [h6, hz]; exact h.raw6, by rw [hz]; exact h.known⟩

theorem RawOf.add {ts ts' : Tables} (h : RawOf cfg ends ts) (hlive : ∀ e ∈ ends, e.1 ∈ live)
    {port : Port} {direction : Direction} (e : addRawChainRules cfg live port direction ts = .ok ts') :
    RawOf cfg (ends ++ [(port, direction)]) ts' ∧ ts'.filter4 = ts.filter4 ∧ ts'.filter6 = ts.filter6 := by
  simp only [addRawChainRules, bind_eq_ok, Except.ok.injEq] at e
  obtain ⟨⟨zone, zones⟩, hz, raw4, h4, raw6, h6, rfl⟩ := e
  obtain ⟨hzone, hle⟩ := getDeviceZone_spec hz
  obtain ⟨_, rfl⟩ := addRule_eq_ok h4
  obtain ⟨_, rfl⟩ := addRule_eq_ok h6
  obtain ⟨hrules, hknown⟩ := rawRule_of_zonesLe cfg hle hlive h.known
  have hnew : makeRule cfg.wrapName "PREROUTING".toList (getJumpRule cfg port direction zone) true false none =
      rawRule cfg zones (port, direction) := by
    rw [rawRule, hzone]
    rfl
  refine ⟨⟨?_, ?_, ?_⟩, rfl, rfl⟩
  · simp only [h.raw4, hrules, hnew, rawTable, map_append, map_cons, map_nil, append_assoc]
  · simp only [h.raw6, hrules, hnew, rawTable, map_append, map_cons, map_nil, append_assoc]
  · intro e he
    rcases mem_append.mp he with he | he
    · exact hknown e he
    · rw [mem_singleton.mp he]
      exact Option.isSome_iff_exists.mpr ⟨zone, hzone⟩

/-- The rules of `_remove_raw_chain_rules` for a row of ends. -/
def removeRaws (cfg : Config) (zones : Dict Line ℕ) (ends : List PortEnd) (t : IptablesTable) : IptablesTable :=
  ends.foldl (fun t e => removeRule cfg.wrapName t "PREROUTING".toList
    (getJumpRule cfg e.1 e.2 ((zones.get (shortPortId e.1.device)).getD 0))) t

theorem removeRaws_rules (zones : Dict Line ℕ) (ends : List PortEnd) (t : IptablesTable) :
    removeRaws cfg zones ends t =
      { t with rules := (ends.map (rawRule cfg zones)).foldl (fun rules a => rules.eraseP (·.same a)) t.rules } := by
  induction ends generalizing t with
  | nil => rfl
  | cons e ends ih =>
    have hcons : removeRaws cfg zones (e :: ends) t = removeRaws cfg zones ends
        (removeRule cfg.wrapName t "PREROUTING".toList
          (getJumpRule cfg e.1 e.2 ((zones.get (shortPortId e.1.device)).getD 0))) := rfl
    rw [hcons, ih]
    rfl

theorem eraseP_same {a : IptablesRule} {l : List IptablesRule} (h : ∀ r ∈ l, r.comment = a.comment) :
    l.eraseP (·.same a) = l.erase a := by
  induction l with
  | nil => rfl
  | cons r l ih =>
    have hr := h r mem_cons_self
    have htail := ih fun b hb => h b (mem_cons_of_mem _ hb)
    by_cases hs : r = a
    · subst hs
      rw [erase_cons_head]
      exact eraseP_cons_of_pos (same_self r)
    · have hns : ¬ r.same a = true := by
        intro e
        obtain ⟨h₁, h₂, h₃, h₄⟩ := of_decide_eq_true e
        exact hs (by cases r; cases a; simp_all)
      rw [erase_cons_tail (by simpa using hs), ← htail]
      exact eraseP_cons_of_neg hns

/-- Rules without comments are found in any order. -/
theorem foldl_eraseP_perm {front : List IptablesRule} : ∀ {l l' : List IptablesRule}, l.Perm l' →
    (∀ a ∈ l, a.comment = none ∧ ∀ r ∈ front, ¬ r.same a = true) →
    l.foldl (fun rules a => rules.eraseP (·.same a)) (front ++ l') = front
  | [], l', hp, _ => by
    rw [hp.nil_eq.symm]
    exact append_nil front
  | a :: l, l', hp, h => by
    obtain ⟨hmem, hp'⟩ := cons_perm_iff_perm_erase.mp hp
    have ha := h a mem_cons_self
    have hl' : ∀ r ∈ l', r.comment = a.comment := fun r hr => (h r (hp.mem_iff.mpr hr)).1.trans ha.1.symm
    have herase : (front ++ l').eraseP (·.same a) = front ++ l'.erase a := by
      rw [← eraseP_same hl']
      exact eraseP_append_right _ ha.2
    rw [foldl_cons, herase]
    exact foldl_eraseP_perm hp' fun b hb => h b (mem_cons_of_mem _ hb)

theorem removeRaws_rawTable {zones : Dict Line ℕ} {ends ends' : List PortEnd} (h : ends.Perm ends') :
    removeRaws cfg zones ends (rawTable cfg (ends'.map (rawRule cfg zones))) = rawTable cfg [] := by
  rw [removeRaws_rules]
  have hfront : ∀ a ∈ ends.map (rawRule cfg zones),
      a.comment = none ∧ ∀ r ∈ startRaw cfg.wrapName, ¬ r.same a = true := by
    intro a ha
    obtain ⟨e, _, rfl⟩ := List.mem_map.mp ha
    refine ⟨rfl, fun r hr hs => ?_⟩
    -- the rules of the start are not wrapped
    have hwrap := (of_decide_eq_true hs).2.2.2
    simp only [startRaw, mem_cons, not_mem_nil, or_false] at hr
    rcases hr with rfl | rfl
    · exact Bool.false_ne_true hwrap
    · exact Bool.false_ne_true hwrap
  simp only [rawTable, foldl_eraseP_perm (h.map (rawRule cfg zones)) hfront, append_nil]

end Raw

/-! ## 4. A teardown undoes a set-up -/

section Installed

variable {cfg : Config} {live : List Port} {sg : SecurityGroups} {ports unfilteredPorts : Dict Line Port}

/-- The tables of a driver before any port. -/
def startTables (cfg : Config) (zones : Dict Line ℕ) : Tables :=
  ⟨grown cfg [] [], grown cfg [] [], rawTable cfg [], rawTable cfg [], zones⟩

/-- They are the tables the two constructors leave. -/
theorem initialTables_eq (cfg : Config) (zones : Dict Line ℕ) :
    initialFilter cfg.wrapName = .ok (startTables cfg zones).filter4 ∧
      initialRaw cfg.wrapName = .ok (startTables cfg zones).raw4 := by
  rw [initialFilter_eq, initialRaw_eq]
  simp only [startTables, grown, rawTable, append_nil, and_self]

/-- **The tables hold a set-up** of the ports `P`, and of `U` without port security. -/
structure Installed (cfg : Config) (P U : List Port) (ts : Tables) : Prop where
  filter4 : ∃ t, Grown cfg P t ∧ ts.filter4 = { t with rules := t.rules ++ acceptRules cfg U }
  filter6 : ∃ t, Grown cfg P t ∧ ts.filter6 = { t with rules := t.rules ++ acceptRules cfg U }
  raw : ∃ ends, ends.Perm (portEnds cfg P) ∧ RawOf cfg ends ts

theorem startTables_installed (cfg : Config) (zones : Dict Line ℕ) : Installed cfg [] [] (startTables cfg zones) := by
  have hg : Grown cfg [] (grown cfg [] []) := ⟨[], [], ⟨nofun, nofun, nofun⟩, rfl⟩
  refine ⟨⟨_, hg, by simp [startTables, acceptRules]⟩, ⟨_, hg, by simp [startTables, acceptRules]⟩, [], ?_,
    rfl, rfl, nofun⟩
  simp [portEnds]

theorem portEnds_append (cfg : Config) (P Q : List Port) : portEnds cfg (P ++ Q) = portEnds cfg P ++ portEnds cfg Q := by
  unfold portEnds
  split_ifs with hh
  · exact flatMap_append
  · rfl

theorem portEnds_perm {P Q : List Port} (h : P.Perm Q) : (portEnds cfg P).Perm (portEnds cfg Q) := by
  unfold portEnds
  split_ifs with hh
  · exact h.flatMap_right _
  · exact .refl _

theorem sortedPorts_perm (h : Dict.KeysNodup ports) : (sortedPorts ports).Perm (ports.map Prod.snd) := by
  have hget (e : Line × Port) (he : e ∈ ports) : ports.get e.1 = some e.2 := (h.mem_iff).mp he
  have hval : (ports.map Prod.fst).filterMap ports.get = ports.map Prod.snd := by
    rw [filterMap_map, ← filterMap_eq_map]
    exact filterMap_congr fun e he => hget e he
  rw [← hval]
  exact (perm_insertionSort _ _).filterMap _

variable {ts ts' : Tables}

/-- The ends one direction of a port adds. -/
theorem addChain_installed {P : List Port} (hP : ∀ port ∈ P, WellNamed cfg port) {port : Port} (hport : port ∈ P)
    {direction : Direction} {ends : List PortEnd} (hlive : ∀ e ∈ ends, e.1 ∈ live)
    (h : GrownTables cfg P ts) (hr : RawOf cfg ends ts) (e : setupChain cfg live sg port direction ts = .ok ts') :
    GrownTables cfg P ts' ∧ RawOf cfg (ends ++ if cfg.hybrid then [(port, direction)] else []) ts' := by
  simp only [setupChain, addChain, bind_eq_ok] at e
  obtain ⟨ts₂, ⟨ts₁, e₁, e₂⟩, e₃⟩ := e
  have h₁ := addChainFilter_grown hP hport h e₁
  have r₁ := hr.frame (addChainFilter_filterOnly port direction ts ts₁ e₁).1
  have hframe := (addRulesBySecurityGroup_filterOnly sg port direction ts₂ ts' e₃).1
  split_ifs at e₂ ⊢ with hh
  · obtain ⟨r₂, f4, f6⟩ := r₁.add hlive e₂
    have h₂ : GrownTables cfg P ts₂ := ⟨f4 ▸ h₁.filter4, f6 ▸ h₁.filter6, f4 ▸ h₁.sg4, f6 ▸ h₁.sg6⟩
    exact ⟨addRulesBySecurityGroup_grown hP hport h₂ e₃, r₂.frame hframe⟩
  · cases e₂
    rw [append_nil]
    exact ⟨addRulesBySecurityGroup_grown hP hport h₁ e₃, r₁.frame hframe⟩

theorem setupPorts_installed {P : List Port} (hP : ∀ port ∈ P, WellNamed cfg port) (l : List Port) (hl : l ⊆ P)
    (hlive : l ⊆ live) {ends : List PortEnd} (hends : ∀ e ∈ ends, e.1 ∈ live)
    (h : GrownTables cfg P ts) (hr : RawOf cfg ends ts)
    (e : l.foldlM (fun ts port => do
      let ts ← setupChain cfg live sg port .ingress ts
      setupChain cfg live sg port .egress ts) ts = .ok ts') :
    GrownTables cfg P ts' ∧ RawOf cfg (ends ++ portEnds cfg l) ts' := by
  induction l generalizing ts ends with
  | nil =>
    cases e
    have hnil : portEnds cfg [] = [] := by simp [portEnds]
    rw [hnil, append_nil]
    exact ⟨h, hr⟩
  | cons port l ih =>
    rw [foldlM_cons] at e
    obtain ⟨ts₁, e₁, e₂⟩ := bind_eq_ok.mp e
    obtain ⟨ts₀, e₀, e₁⟩ := bind_eq_ok.mp e₁
    have hport := hl mem_cons_self
    have hcons : portEnds cfg (port :: l) =
        (if cfg.hybrid then [(port, .ingress)] else []) ++ (if cfg.hybrid then [(port, .egress)] else []) ++
          portEnds cfg l := by
      unfold portEnds
      split_ifs with hh
      · rfl
      · rfl
    have hends' (direction : Direction) (ends : List PortEnd) (hends : ∀ e ∈ ends, e.1 ∈ live) :
        ∀ e ∈ ends ++ (if cfg.hybrid then [(port, direction)] else []), e.1 ∈ live := by
      intro e he
      rcases mem_append.mp he with he | he
      · exact hends e he
      · split_ifs at he
        · rw [mem_singleton.mp he]
          exact hlive mem_cons_self
        · exact nomatch he
    obtain ⟨h₀, r₀⟩ := addChain_installed hP hport hends h hr e₀
    obtain ⟨h₁, r₁⟩ := addChain_installed hP hport (hends' _ _ hends) h₀ r₀ e₁
    have hrest := ih (fun _ hb => hl (mem_cons_of_mem _ hb)) (fun _ hb => hlive (mem_cons_of_mem _ hb))
      (hends' _ _ (hends' _ _ hends)) h₁ r₁ e₂
    rwa [hcons, ← append_assoc, ← append_assoc]

theorem addAccepts_eq {U : List Port}
    (e : U.foldlM (fun ts port => do
      let ts ← addAcceptRulePortSec cfg port .ingress ts
      addAcceptRulePortSec cfg port .egress ts) ts = .ok ts') :
    ts'.filter4 = { ts.filter4 with rules := ts.filter4.rules ++ acceptRules cfg U } ∧
      ts'.filter6 = { ts.filter6 with rules := ts.filter6.rules ++ acceptRules cfg U } := by
  induction U generalizing ts with
  | nil =>
    cases e
    simp [acceptRules]
  | cons port U ih =>
    rw [foldlM_cons] at e
    obtain ⟨ts₁, e₁, e₂⟩ := bind_eq_ok.mp e
    obtain ⟨h4, h6⟩ := ih e₂
    simp only [addAcceptRulePortSec, portSecChains, addRulesToChainV4V6, addRules, foldlM_cons, foldlM_nil,
      bind_pure, bind_eq_ok, Except.ok.injEq] at e₁
    obtain ⟨_, ⟨a4, ha4, a6, ha6, rfl⟩, _, ⟨b4, hb4, b6, hb6, rfl⟩, c4, hc4, c6, hc6, rfl⟩ := e₁
    obtain ⟨_, rfl⟩ := addRule_eq_ok ha4
    obtain ⟨_, rfl⟩ := addRule_eq_ok ha6
    obtain ⟨_, rfl⟩ := addRule_eq_ok hb4
    obtain ⟨_, rfl⟩ := addRule_eq_ok hb6
    obtain ⟨_, rfl⟩ := addRule_eq_ok hc4
    obtain ⟨_, rfl⟩ := addRule_eq_ok hc6
    rw [h4, h6]
    simp [acceptRules, acceptPlaces]

/-- **What a set-up leaves.** -/
theorem setupChainsApply_installed (hP : ∀ port ∈ ports.map Prod.snd, WellNamed cfg port)
    (hkeys : Dict.KeysNodup ports) (hlive : ports.map Prod.snd ⊆ live) {zones : Dict Line ℕ} {ts' : Tables}
    (e : setupChainsApply cfg live sg ports unfilteredPorts (startTables cfg zones) = .ok ts') :
    Installed cfg (ports.map Prod.snd) (unfilteredPorts.map Prod.snd) ts' := by
  simp only [setupChainsApply, bind_eq_ok] at e
  obtain ⟨ts₁, e₁, ts₂, e₂, e₃⟩ := e
  have hg : Grown cfg (ports.map Prod.snd) (grown cfg [] []) := ⟨[], [], ⟨nofun, nofun, nofun⟩, rfl⟩
  obtain ⟨g, hc, _⟩ := hg.addChain (.inl rfl) removable_sgChain
  have h₀ : GrownTables cfg (ports.map Prod.snd) (addChainByNameV4V6 sgChain (startTables cfg zones)) := ⟨g, g, hc, hc⟩
  have r₀ : RawOf cfg [] (addChainByNameV4V6 sgChain (startTables cfg zones)) := ⟨rfl, rfl, nofun⟩
  have hsub : sortedPorts ports ⊆ ports.map Prod.snd := fun _ => mem_sortedPorts
  obtain ⟨h₁, r₁⟩ := setupPorts_installed hP _ hsub (fun _ hb => hlive (hsub hb))
    (fun _ he => absurd he not_mem_nil) h₀ r₀ e₁
  have h₂ := addRulesToChainV4V6_own h₁ removable_sgChain e₂
  have r₂ := r₁.frame (addRulesToChainV4V6_filterOnly _ _ _ _ _ _ e₂).1
  have haccept : FilterOnly fun ts => (unfilteredPorts.map Prod.snd).foldlM (fun ts port => do
      let ts ← addAcceptRulePortSec cfg port .ingress ts
      addAcceptRulePortSec cfg port .egress ts) ts :=
    FilterOnly.foldlM fun port _ => (addAcceptRulePortSec_filterOnly port .ingress).bind
      (addAcceptRulePortSec_filterOnly port .egress)
  obtain ⟨h4, h6⟩ := addAccepts_eq e₃
  refine ⟨⟨_, h₂.filter4, h4⟩, ⟨_, h₂.filter6, h6⟩, _, ?_, r₂.frame (haccept _ _ e₃).1⟩
  rw [nil_append]
  exact portEnds_perm (sortedPorts_perm hkeys)

/-- The removals for a row of ports whose zones are known. -/
theorem removePorts_eq (l : List Port) {ts : Tables}
    (hknown : ∀ e ∈ portEnds cfg l, (ts.deviceZoneMap.get (shortPortId e.1.device)).isSome = true) :
    l.foldlM (fun ts port =>
        [.direction .ingress, .direction .egress, .spoofFilter].foldlM (removeChainOf cfg live port) ts) ts =
      .ok
        { ts with
          filter4 := (chainNames cfg l).foldl (removeChain cfg.wrapName) ts.filter4
          filter6 := (chainNames cfg l).foldl (removeChain cfg.wrapName) ts.filter6
          raw4 := removeRaws cfg ts.deviceZoneMap (portEnds cfg l) ts.raw4
          raw6 := removeRaws cfg ts.deviceZoneMap (portEnds cfg l) ts.raw6 } := by
  induction l generalizing ts with
  | nil =>
    have hnil : portEnds cfg [] = [] := by simp [portEnds]
    rw [hnil]
    rfl
  | cons port l ih =>
    have hsplit : portEnds cfg (port :: l) = portEnds cfg [port] ++ portEnds cfg l := portEnds_append cfg [port] l
    have hnames : chainNames cfg (port :: l) =
        [.direction .ingress, .direction .egress, .spoofFilter].map (portChainName cfg port) ++ chainNames cfg l := rfl
    have hone : [ChainKind.direction .ingress, .direction .egress, .spoofFilter].foldlM (removeChainOf cfg live port) ts =
        .ok
          { ts with
            filter4 := ([.direction .ingress, .direction .egress, .spoofFilter].map (portChainName cfg port)).foldl
              (removeChain cfg.wrapName) ts.filter4
            filter6 := ([.direction .ingress, .direction .egress, .spoofFilter].map (portChainName cfg port)).foldl
              (removeChain cfg.wrapName) ts.filter6
            raw4 := removeRaws cfg ts.deviceZoneMap (portEnds cfg [port]) ts.raw4
            raw6 := removeRaws cfg ts.deviceZoneMap (portEnds cfg [port]) ts.raw6 } := by
      by_cases hh : cfg.hybrid = true
      · have hmem : (port, Direction.ingress) ∈ portEnds cfg (port :: l) := by
          rw [hsplit]
          simp [portEnds, hh]
        obtain ⟨zone, hzone⟩ := Option.isSome_iff_exists.mp (hknown _ hmem)
        have hgetD : (ts.deviceZoneMap.get (shortPortId port.device)).getD 0 = zone := by
          rw [hzone]
          rfl
        have hdir (direction : Direction) (s : Tables) (hs : s.deviceZoneMap = ts.deviceZoneMap) :
            removeChainOf cfg live port s (.direction direction) =
              .ok
                { s with
                  filter4 := removeChain cfg.wrapName s.filter4 (portChainName cfg port (.direction direction))
                  filter6 := removeChain cfg.wrapName s.filter6 (portChainName cfg port (.direction direction))
                  raw4 := removeRule cfg.wrapName s.raw4 "PREROUTING".toList (getJumpRule cfg port direction zone)
                  raw6 := removeRule cfg.wrapName s.raw6 "PREROUTING".toList (getJumpRule cfg port direction zone) } := by
          have hget : getDeviceZone live s.deviceZoneMap port.device = .ok (zone, s.deviceZoneMap) :=
            getDeviceZone_known (hs ▸ hzone)
          simp only [removeChainOf, hh, if_true, removeRawChainRules, removeChainByNameV4V6, hget]
          rfl
        refine bind_eq_ok.mpr ⟨_, hdir .ingress ts rfl, bind_eq_ok.mpr ⟨_, hdir .egress _ rfl, ?_⟩⟩
        simp only [portEnds, hh, if_true, removeRaws, hgetD, flatMap_cons, flatMap_nil, append_nil,
          foldl_cons, foldl_nil, map_cons, map_nil]
        rfl
      · simp only [foldlM_cons, foldlM_nil, removeChainOf, hh, Bool.false_eq_true, if_false,
          removeChainByNameV4V6, portEnds, removeRaws, foldl_cons, foldl_nil, map_cons, map_nil]
        rfl
    rw [foldlM_cons]
    refine bind_eq_ok.mpr ⟨_, hone, ?_⟩
    rw [ih]
    · simp only [hnames, hsplit, removeRaws, foldl_append]
    · exact fun e he => hknown e (hsplit ▸ mem_append_right _ he)

/-- **A teardown undoes a set-up**, made with any security group data. -/
theorem removeChainsApply_eq (hP : ∀ port ∈ ports.map Prod.snd, WellNamed cfg port) {ts : Tables}
    (h : Installed cfg (ports.map Prod.snd) (unfilteredPorts.map Prod.snd) ts) :
    removeChainsApply cfg live ports unfilteredPorts ts = .ok (startTables cfg ts.deviceZoneMap) := by
  obtain ⟨t4, g4, e4⟩ := h.filter4
  obtain ⟨t6, g6, e6⟩ := h.filter6
  obtain ⟨ends, hperm, hraw⟩ := h.raw
  have hknown : ∀ e ∈ portEnds cfg (ports.map Prod.snd),
      (ts.deviceZoneMap.get (shortPortId e.1.device)).isSome = true := fun e he => hraw.known e (hperm.mem_iff.mpr he)
  have haccepts (U : List Port) (ts : Tables) :
      U.foldl (fun ts port => removeRulePortSec cfg port .egress (removeRulePortSec cfg port .ingress ts)) ts =
        { ts with filter4 := removeAccepts cfg U ts.filter4, filter6 := removeAccepts cfg U ts.filter6 } := by
    induction U generalizing ts with
    | nil => rfl
    | cons port U ih => exact ih _
  unfold removeChainsApply
  rw [removePorts_eq _ hknown]
  refine congrArg Except.ok ?_
  rw [haccepts]
  simp only [removeChainByNameV4V6, startTables, e4, e6, hraw.raw4, hraw.raw6, removeRaws_rawTable hperm.symm,
    teardown_filter hP (fun _ => Iff.rfl) _ g4, teardown_filter hP (fun _ => Iff.rfl) _ g6]

/-- **A set-up repeats itself** with the zones it left. -/
theorem setupChainsApply_rerun (hlive : ports.map Prod.snd ⊆ live) {zones : Dict Line ℕ} {ts' : Tables}
    (e : setupChainsApply cfg live sg ports unfilteredPorts (startTables cfg zones) = .ok ts') :
    setupChainsApply cfg live sg ports unfilteredPorts (startTables cfg ts'.deviceZoneMap) = .ok ts' :=
  (setupChainsApply_steady sg unfilteredPorts hlive).rerun _ _ e _ (.refl _ _)

end Installed

end Mitaka.Neutron.Firewall
