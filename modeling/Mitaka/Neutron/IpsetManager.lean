/-
  Subject: neutron/agent/linux/ipset_manager.py, and the sets of the kernel.

  A set of the kernel has networks; the manager tracks members as they are written, with
  their host bits. The text of a member is its version, value and prefix length, so that
  members stand for their texts. A Python set is listed in any order (`listOf`).

  What is tracked and what the kernel has are the same after every call of a run
  (**`setMembers_shows`**) when a member that is deleted one by one is tracked once, no
  other member has its network, and no set has the name of the set that is swapped in.
-/
import Mitaka.Keystone.Text
import Mitaka.Lib.Dict
import Mitaka.Lib.Run
import Mitaka.Neutron.AllocationPools

namespace Mitaka.Neutron.IpsetManager

open List Option

open AllocationPools (Cidr width)
open Keystone (Str)

/-- The network of a member. -/
def network (m : Cidr) : Block := ⟨m.host, m.value / 2 ^ m.host⟩

/-! ## 1. The kernel -/

/-- A set of type `hash:net`. -/
structure KernelSet where
  v6 : Bool
  entries : Finset Block
deriving DecidableEq

abbrev Kernel := Dict Str KernelSet

namespace Kernel

/-- `ipset create -exist`; none is a command that fails. -/
def create (k : Kernel) (name : Str) (v6 : Bool) : Option Kernel :=
  match Dict.get k name with
  | none => some (Dict.set k name ⟨v6, ∅⟩)
  | some ks => if ks.v6 = v6 then some k else none

/-- `ipset add -exist`; an address of the other family and a length of zero are refused. -/
def add (k : Kernel) (name : Str) (m : Cidr) : Option Kernel :=
  (Dict.get k name).bind fun ks =>
    if m.v6 = ks.v6 ∧ m.prefixlen ≠ 0 then some (Dict.set k name ⟨ks.v6, insert (network m) ks.entries⟩) else none

/-- `ipset del`, whose failure is ignored. -/
def del (k : Kernel) (name : Str) (m : Cidr) : Kernel :=
  match Dict.get k name with
  | none => k
  | some ks => if m.v6 = ks.v6 then Dict.set k name ⟨ks.v6, ks.entries.erase (network m)⟩ else k

/-- `ipset swap` of two sets of one family. -/
def swap (k : Kernel) (src dest : Str) : Option Kernel :=
  match Dict.get k src, Dict.get k dest with
  | some a, some b => if a.v6 = b.v6 then some (Dict.set (Dict.set k src b) dest a) else none
  | _, _ => none

end Kernel

/-! ## 2. The manager -/

/-- The kernel and `ipset_sets`. -/
structure State where
  kernel : Kernel
  ipsetSets : Dict Str (List Cidr)
deriving DecidableEq

/-- `_sanitize_addresses`. -/
def sanitizeAddresses (addresses : List Cidr) : List Cidr :=
  addresses.flatMap fun ip =>
    if ip.prefixlen = 0 then
      match ip.v6 with
      | false => [⟨false, 0, 1, by decide, by decide⟩, ⟨false, 2 ^ 31, 1, by decide, by decide⟩]
      | true => [⟨true, 0, 1, by decide, by decide⟩, ⟨true, 2 ^ 127, 1, by decide, by decide⟩]
    else [ip]

/-- `get_name`. -/
def getName (id ethertype : Str) : Str := ('N' :: ethertype ++ id).take 29

/-- The name of the set that is swapped in. -/
def newSetName (setName : Str) : Str := setName ++ ['-', 'n']

/-- `_get_ipset_set_type`. -/
def setType (ethertype : Str) : Bool := ethertype = ['I', 'P', 'v', '6']

namespace State

/-- `ipset_sets.get(set_name, [])`. -/
def tracked (s : State) (name : Str) : List Cidr := (s.ipsetSets.get name).getD []

/-- `_add_member_to_set`. -/
def addMemberToSet (s : State) (name : Str) (m : Cidr) : Option State :=
  (s.kernel.add name m).map fun kernel => ⟨kernel, s.ipsetSets.set name (s.tracked name ++ [m])⟩

/-- `_add_members_to_set`. -/
def addMembersToSet (s : State) (name : Str) (addIps : List Cidr) : Option State :=
  addIps.foldlM (fun s ip => if ip ∉ s.tracked name then s.addMemberToSet name ip else some s) s

/-- `_del_member_from_set`. -/
def delMemberFromSet (s : State) (name : Str) (m : Cidr) : State :=
  ⟨s.kernel.del name m, s.ipsetSets.set name ((s.tracked name).erase m)⟩

/-- `_del_members_from_set`. -/
def delMembersFromSet (s : State) (name : Str) (delIps : List Cidr) : State :=
  delIps.foldl (fun s ip => if ip ∈ s.tracked name then s.delMemberFromSet name ip else s) s

/-- `_create_set`. -/
def createSet (s : State) (name ethertype : Str) : Option State :=
  (s.kernel.create name (setType ethertype)).map fun kernel => ⟨kernel, s.ipsetSets.set name []⟩

/-- `_destroy`. -/
def destroySet (s : State) (name : Str) (forced : Bool) : State :=
  if (s.ipsetSets.get name).isSome ∨ forced then ⟨Dict.erase s.kernel name, s.ipsetSets.erase name⟩ else s

/-- `_refresh_set`. -/
def refreshSet (s : State) (name : Str) (memberIps : List Cidr) (ethertype : Str) : Option State :=
  (s.kernel.create (newSetName name) (setType ethertype)).bind fun kernel =>
    (memberIps.foldlM (fun kernel ip => Kernel.add kernel (newSetName name) ip) kernel).bind fun kernel =>
      (kernel.swap (newSetName name) name).map fun kernel =>
        let s := destroySet ⟨kernel, s.ipsetSets⟩ (newSetName name) true
        ⟨s.kernel, s.ipsetSets.set name memberIps⟩

section

variable (listOf : List Cidr → List Cidr)

/-- `_get_new_set_ips`. -/
def newSetIps (s : State) (name : Str) (expected : List Cidr) : List Cidr :=
  listOf (expected.filter fun ip => ip ∉ s.tracked name).dedup

/-- `_get_deleted_set_ips`. -/
def deletedSetIps (s : State) (name : Str) (expected : List Cidr) : List Cidr :=
  listOf ((s.tracked name).filter fun ip => ip ∉ expected).dedup

/-- `set_members_mutate`. -/
def setMembersMutate (s : State) (name ethertype : Str) (memberIps : List Cidr) : Option State :=
  match s.ipsetSets.get name with
  | none => (s.createSet name ethertype).bind fun s => s.refreshSet name memberIps ethertype
  | some _ =>
    let addIps := s.newSetIps listOf name memberIps
    let delIps := s.deletedSetIps listOf name memberIps
    if addIps.length + delIps.length < 5 then
      (s.addMembersToSet name addIps).map fun s => s.delMembersFromSet name delIps
    else s.refreshSet name memberIps ethertype

/-- `set_members`, with the members that it returns. -/
def setMembers (s : State) (id ethertype : Str) (memberIps : List Cidr) : Option (State × List Cidr × List Cidr) :=
  let memberIps := sanitizeAddresses memberIps
  let name := getName id ethertype
  let addIps := s.newSetIps listOf name memberIps
  let delIps := s.deletedSetIps listOf name memberIps
  if addIps ≠ [] ∨ delIps ≠ [] ∨ s.ipsetSets.get name = none then
    (s.setMembersMutate listOf name ethertype memberIps).map fun s => (s, addIps, delIps)
  else some (s, addIps, delIps)

/-- `destroy`. -/
def destroy (s : State) (id ethertype : Str) (forced : Bool) : State := s.destroySet (getName id ethertype) forced

end

end State

/-- The calls of the manager. -/
inductive Action
  | setMembers (id ethertype : Str) (memberIps : List Cidr)
  | destroy (id ethertype : Str) (forced : Bool)

/-- A call whose commands succeed. -/
def step (listOf : List Cidr → List Cidr) (s : State) : Action → Option State
  | .setMembers id ethertype memberIps => (s.setMembers listOf id ethertype memberIps).map Prod.fst
  | .destroy id ethertype forced => some (s.destroy id ethertype forced)

/-! ## 3. What is asked of it -/

/-- The set of the kernel covers the networks of the addresses, and so do the members that are tracked. -/
structure Shows (s : State) (name : Str) (ips : List Cidr) (ks : KernelSet) (members : List Cidr) : Prop where
  kernel : Dict.get s.kernel name = some ks
  tracked : s.ipsetSets.get name = some members
  family : ∀ ip ∈ ips, ip.v6 = ks.v6
  covers : ∀ a, (∃ b ∈ ks.entries, b.Has a) ↔ ∃ ip ∈ ips, (network ip).Has a
  denotes : ∀ a, (∃ m ∈ members, (network m).Has a) ↔ ∃ ip ∈ ips, (network ip).Has a

/-- The set is changed member by member. -/
def Small (s : State) (name : Str) (memberIps : List Cidr) : Prop :=
  (s.ipsetSets.get name).isSome ∧
    (memberIps.filter fun ip => ip ∉ s.tracked name).dedup.length +
      ((s.tracked name).filter fun ip => ip ∉ memberIps).dedup.length < 5

/-- A member that is deleted by itself is tracked once and shares its network with no other; a set that is swapped in
has a name of its own. -/
def StepOk (s : State) : Action → Prop
  | .setMembers id ethertype ips =>
    (Small s (getName id ethertype) (sanitizeAddresses ips) →
      ∀ m ∈ s.tracked (getName id ethertype), m ∉ sanitizeAddresses ips →
        (s.tracked (getName id ethertype)).count m = 1 ∧ ∀ ip ∈ sanitizeAddresses ips, network ip ≠ network m) ∧
    (¬ Small s (getName id ethertype) (sanitizeAddresses ips) →
      Dict.get s.kernel (newSetName (getName id ethertype)) = none)
  | .destroy _ _ _ => True

/-! ## 4. Commands -/

/-- The set has the networks of the members, which are of its family. -/
structure Denotes (ks : KernelSet) (members : List Cidr) : Prop where
  entries : ∀ b, b ∈ ks.entries ↔ ∃ m ∈ members, network m = b
  family : ∀ m ∈ members, m.v6 = ks.v6

variable {entries : Finset Block}

theorem Denotes.add {v6 : Bool} {ms : List Cidr} (h : Denotes ⟨v6, entries⟩ ms) {m : Cidr}
    (hm : m.v6 = v6) : Denotes ⟨v6, insert (network m) entries⟩ (ms ++ [m]) where
  entries b := by
    rw [Finset.mem_insert, h.entries]
    simp only [mem_append, mem_singleton, or_and_right, exists_or, exists_eq_left]
    rw [or_comm, eq_comm]
  family m' hm' := by
    rcases mem_append.mp hm' with hm' | hm'
    · exact h.family m' hm'
    · rw [mem_singleton.mp hm']
      exact hm

section Commands

variable {k k' : Kernel} {name : Str}

theorem create_eq {v6 : Bool} (h : k.create name v6 = some k') : ∃ entries, Dict.get k' name = some ⟨v6, entries⟩ ∧
    (Dict.get k name = none → entries = ∅) ∧ (Dict.get k name = none ∨ Dict.get k name = some ⟨v6, entries⟩) ∧
    ∀ n ≠ name, Dict.get k' n = Dict.get k n := by
  unfold Kernel.create at h
  cases hk : Dict.get k name with
  | none =>
    rw [hk] at h
    obtain rfl := Option.some.inj h
    refine ⟨∅, by rw [Dict.get_set, if_pos rfl], fun _ => rfl, Or.inl rfl, fun n hn => ?_⟩
    rw [Dict.get_set, if_neg (Ne.symm hn)]
  | some ks =>
    rw [hk] at h
    dsimp only at h
    split_ifs at h with hv6
    obtain rfl := Option.some.inj h
    obtain ⟨v, entries⟩ := ks
    obtain rfl : v = v6 := hv6
    exact ⟨entries, hk, nofun, Or.inr rfl, fun _ _ => rfl⟩

theorem add_eq {m : Cidr} (h : k.add name m = some k') : ∃ ks, Dict.get k name = some ks ∧ m.v6 = ks.v6 ∧
    Dict.get k' name = some ⟨ks.v6, insert (network m) ks.entries⟩ ∧ ∀ n ≠ name, Dict.get k' n = Dict.get k n := by
  obtain ⟨ks, hks, h⟩ := bind_eq_some_iff.mp h
  split_ifs at h with hm
  obtain rfl := Option.some.inj h
  refine ⟨ks, hks, hm.1, by rw [Dict.get_set, if_pos rfl], fun n hn => ?_⟩
  rw [Dict.get_set, if_neg (Ne.symm hn)]

/-- **A set that is filled** has what it had and the members. -/
theorem adds_eq {v6 : Bool} {entries : Finset Block} {ms : List Cidr} (hk : Dict.get k name = some ⟨v6, entries⟩)
    (hms : Denotes ⟨v6, entries⟩ ms) {ips : List Cidr}
    (h : ips.foldlM (fun k ip => Kernel.add k name ip) k = some k') : (∃ entries',
      Dict.get k' name = some ⟨v6, entries'⟩ ∧ Denotes ⟨v6, entries'⟩ (ms ++ ips)) ∧
      ∀ n ≠ name, Dict.get k' n = Dict.get k n := by
  induction ips generalizing k entries ms with
  | nil =>
    obtain rfl := Option.some.inj h
    rw [append_nil]
    exact ⟨⟨entries, hk, hms⟩, fun _ _ => rfl⟩
  | cons ip ips ih =>
    rw [foldlM_cons] at h
    obtain ⟨k₁, hadd, h⟩ := bind_eq_some_iff.mp h
    obtain ⟨ks, hks, hv6, hget, hframe⟩ := add_eq hadd
    rw [hk] at hks
    obtain rfl := Option.some.inj hks
    obtain ⟨hlast, hframe'⟩ := ih hget (hms.add hv6) h
    rw [append_assoc, singleton_append] at hlast
    exact ⟨hlast, fun n hn => (hframe' n hn).trans (hframe n hn)⟩

theorem swap_eq {src : Str} (h : k.swap src name = some k') : ∃ a b, Dict.get k src = some a ∧
    Dict.get k name = some b ∧ a.v6 = b.v6 ∧ Dict.get k' name = some a ∧
    ∀ n, n ≠ src → n ≠ name → Dict.get k' n = Dict.get k n := by
  unfold Kernel.swap at h
  split at h
  · next a b ha hb =>
    split_ifs at h with hv6
    obtain rfl := Option.some.inj h
    refine ⟨a, b, ha, hb, hv6, by rw [Dict.get_set, if_pos rfl], fun n hsrc hn => ?_⟩
    rw [Dict.get_set, if_neg (Ne.symm hn), Dict.get_set, if_neg (Ne.symm hsrc)]
  · cases h

end Commands

theorem newSetName_ne (name : Str) : newSetName name ≠ name := fun h => by
  have hlength := congrArg List.length h
  rw [newSetName, length_append, length_cons, length_singleton] at hlength
  omega

/-! ## 5. What is tracked and what there is -/

/-- There is no set of the name, or the members that are tracked are those of the kernel. -/
def MirrorsAt (s : State) (name : Str) : Prop :=
  Dict.get s.kernel name = none ∧ s.ipsetSets.get name = none ∨
    ∃ ks members, Dict.get s.kernel name = some ks ∧ s.ipsetSets.get name = some members ∧ Denotes ks members

/-- What a set is after it was changed to the members, and what becomes of the other sets. -/
structure Becomes (s s' : State) (name : Str) (memberIps : List Cidr) : Prop where
  here : ∃ ks members, Dict.get s'.kernel name = some ks ∧ s'.ipsetSets.get name = some members ∧ Denotes ks members ∧
    ∀ m, m ∈ members ↔ m ∈ memberIps
  elsewhere : ∀ n ≠ name, MirrorsAt s n → MirrorsAt s' n

theorem MirrorsAt.of_get {s s' : State} {n : Str} (h : MirrorsAt s n) (hk : Dict.get s'.kernel n = Dict.get s.kernel n)
    (ht : s'.ipsetSets.get n = s.ipsetSets.get n) : MirrorsAt s' n := by
  unfold MirrorsAt
  rw [hk, ht]
  exact h

/-- **A set that is swapped in.** -/
theorem refreshSet_becomes {s s' : State} {name ethertype : Str} {memberIps : List Cidr}
    (hfree : Dict.get s.kernel (newSetName name) = none)
    (h : s.refreshSet name memberIps ethertype = some s') : Becomes s s' name memberIps := by
  have hne := newSetName_ne name
  obtain ⟨k₁, hcreate, h⟩ := bind_eq_some_iff.mp h
  obtain ⟨k₂, hadds, h⟩ := bind_eq_some_iff.mp h
  obtain ⟨k₃, hswap, h⟩ := map_eq_some_iff.mp h
  obtain ⟨entries, hget, hempty, -, hframe⟩ := create_eq hcreate
  obtain rfl := hempty hfree
  have hnone : Denotes ⟨setType ethertype, ∅⟩ [] := ⟨fun b => by simp, nofun⟩
  obtain ⟨⟨filled, hfilled, hdenotes⟩, hframe'⟩ := adds_eq hget hnone hadds
  obtain ⟨a, b, ha, -, -, hname, hframe''⟩ := swap_eq hswap
  rw [hfilled] at ha
  obtain rfl := Option.some.inj ha
  rw [nil_append] at hdenotes
  have hdestroyed : (⟨k₃, s.ipsetSets⟩ : State).destroySet (newSetName name) true =
      ⟨Dict.erase k₃ (newSetName name), s.ipsetSets.erase (newSetName name)⟩ := if_pos (Or.inr rfl)
  dsimp only at h
  rw [hdestroyed] at h
  subst h
  refine ⟨⟨_, memberIps, ?_, ?_, hdenotes, fun _ => Iff.rfl⟩, fun n hn hmirrors => ?_⟩
  · rw [Dict.get_erase, if_neg hne]
    exact hname
  · rw [Dict.get_set, if_pos rfl]
  · by_cases hnew : n = newSetName name
    · -- the set that was swapped out is gone
      refine Or.inl ⟨?_, ?_⟩
      · rw [hnew, Dict.get_erase, if_pos rfl]
      · rw [Dict.get_set, if_neg (Ne.symm hn), hnew, Dict.get_erase, if_pos rfl]
    · refine hmirrors.of_get ?_ ?_
      · rw [Dict.get_erase, if_neg (Ne.symm hnew), hframe'' n hnew hn, hframe' n hnew, hframe n hnew]
      · rw [Dict.get_set, if_neg (Ne.symm hn), Dict.get_erase, if_neg (Ne.symm hnew)]

/-- **A set that is made.** -/
theorem created_becomes {s s₁ s' : State} {name ethertype : Str} {memberIps : List Cidr}
    (hfree : Dict.get s.kernel (newSetName name) = none) (hcreate : s.createSet name ethertype = some s₁)
    (h : s₁.refreshSet name memberIps ethertype = some s') : Becomes s s' name memberIps := by
  obtain ⟨k, hk, rfl⟩ := map_eq_some_iff.mp hcreate
  obtain ⟨entries, -, -, -, hframe⟩ := create_eq hk
  obtain ⟨here, elsewhere⟩ := refreshSet_becomes ((hframe _ (newSetName_ne name)).trans hfree) h
  refine ⟨here, fun n hn hmirrors => elsewhere n hn (hmirrors.of_get (hframe n hn) ?_)⟩
  rw [Dict.get_set, if_neg (Ne.symm hn)]

/-! ## 6. Member by member -/

theorem addMembersToSet_eq {s s' : State} {name : Str} {v6 : Bool} {members : List Cidr}
    (hkernel : Dict.get s.kernel name = some ⟨v6, entries⟩) (htracked : s.ipsetSets.get name = some members)
    (hdenotes : Denotes ⟨v6, entries⟩ members) {addIps : List Cidr} (hnew : ∀ ip ∈ addIps, ip ∉ members)
    (hnodup : addIps.Nodup) (h : s.addMembersToSet name addIps = some s') :
    (∃ entries', Dict.get s'.kernel name = some ⟨v6, entries'⟩ ∧ s'.ipsetSets.get name = some (members ++ addIps) ∧
      Denotes ⟨v6, entries'⟩ (members ++ addIps)) ∧
      ∀ n ≠ name, Dict.get s'.kernel n = Dict.get s.kernel n ∧ s'.ipsetSets.get n = s.ipsetSets.get n := by
  induction addIps generalizing s entries members with
  | nil =>
    obtain rfl := Option.some.inj h
    rw [append_nil]
    exact ⟨⟨entries, hkernel, htracked, hdenotes⟩, fun _ _ => ⟨rfl, rfl⟩⟩
  | cons ip addIps ih =>
    obtain ⟨hip, hnodup⟩ := nodup_cons.mp hnodup
    have hout : ip ∉ s.tracked name := by
      rw [State.tracked, htracked]
      exact hnew ip mem_cons_self
    rw [State.addMembersToSet, foldlM_cons, if_pos hout] at h
    obtain ⟨s₁, hadd, h⟩ := bind_eq_some_iff.mp h
    obtain ⟨k, hk, rfl⟩ := map_eq_some_iff.mp hadd
    obtain ⟨ks, hks, hv6, hget, hframe⟩ := add_eq hk
    rw [hkernel] at hks
    obtain rfl := Option.some.inj hks
    have htracked' : (s.ipsetSets.set name (s.tracked name ++ [ip])).get name = some (members ++ [ip]) := by
      rw [Dict.get_set, if_pos rfl, State.tracked, htracked]
      rfl
    have hnew' : ∀ ip' ∈ addIps, ip' ∉ members ++ [ip] := fun ip' hip' hmem => by
      rcases mem_append.mp hmem with hmem | hmem
      · exact hnew ip' (mem_cons_of_mem _ hip') hmem
      · rw [mem_singleton.mp hmem] at hip'
        exact hip hip'
    obtain ⟨hlast, hframe'⟩ := ih hget htracked' (hdenotes.add hv6) hnew' hnodup h
    rw [append_assoc, singleton_append] at hlast
    refine ⟨hlast, fun n hn => ⟨(hframe' n hn).1.trans (hframe n hn), (hframe' n hn).2.trans ?_⟩⟩
    rw [Dict.get_set, if_neg (Ne.symm hn)]

theorem delMembersFromSet_eq {s : State} {name : Str} {v6 : Bool} {members : List Cidr}
    (hkernel : Dict.get s.kernel name = some ⟨v6, entries⟩) (htracked : s.ipsetSets.get name = some members)
    (hfamily : ∀ m ∈ members, m.v6 = v6) {delIps : List Cidr} (hcount : ∀ ip ∈ delIps, members.count ip = 1)
    (hnodup : delIps.Nodup) :
    (∃ entries' members', Dict.get (s.delMembersFromSet name delIps).kernel name = some ⟨v6, entries'⟩ ∧
      (s.delMembersFromSet name delIps).ipsetSets.get name = some members' ∧
      (∀ m, m ∈ members' ↔ m ∈ members ∧ m ∉ delIps) ∧
      ∀ b, b ∈ entries' ↔ b ∈ entries ∧ ∀ ip ∈ delIps, network ip ≠ b) ∧
      ∀ n ≠ name, Dict.get (s.delMembersFromSet name delIps).kernel n = Dict.get s.kernel n ∧
        (s.delMembersFromSet name delIps).ipsetSets.get n = s.ipsetSets.get n := by
  induction delIps generalizing s entries members with
  | nil =>
    refine ⟨⟨entries, members, hkernel, htracked, fun m => ?_, fun b => ?_⟩, fun _ _ => ⟨rfl, rfl⟩⟩
    · exact (and_iff_left not_mem_nil).symm
    · exact (and_iff_left nofun).symm
  | cons ip delIps ih =>
    obtain ⟨hip, hnodup⟩ := nodup_cons.mp hnodup
    have hone := hcount ip mem_cons_self
    have hmem : ip ∈ members := count_pos_iff.mp (by omega)
    have hin : ip ∈ s.tracked name := by
      rw [State.tracked, htracked]
      exact hmem
    have herased (m : Cidr) : m ∈ members.erase ip ↔ m ∈ members ∧ m ≠ ip := by
      by_cases hm : m = ip
      · rw [hm]
        refine iff_of_false (fun hmem' => ?_) fun hh => hh.2 rfl
        have hzero := count_pos_iff.mpr hmem'
        rw [count_erase_self, hone] at hzero
        exact absurd hzero (Nat.lt_irrefl 0)
      · exact (mem_erase_of_ne hm).trans (and_iff_left hm).symm
    have hkernel' : Dict.get (s.delMemberFromSet name ip).kernel name = some ⟨v6, entries.erase (network ip)⟩ := by
      rw [State.delMemberFromSet, Kernel.del, hkernel]
      simp only [if_pos (hfamily ip hmem)]
      rw [Dict.get_set, if_pos rfl]
    have htracked' : (s.delMemberFromSet name ip).ipsetSets.get name = some (members.erase ip) := by
      rw [State.delMemberFromSet, Dict.get_set, if_pos rfl, State.tracked, htracked]
      rfl
    have hframe : ∀ n ≠ name, Dict.get (s.delMemberFromSet name ip).kernel n = Dict.get s.kernel n ∧
        (s.delMemberFromSet name ip).ipsetSets.get n = s.ipsetSets.get n := fun n hn => by
      rw [State.delMemberFromSet, Kernel.del, hkernel]
      simp only [if_pos (hfamily ip hmem)]
      rw [Dict.get_set, if_neg (Ne.symm hn), Dict.get_set, if_neg (Ne.symm hn)]
      exact ⟨rfl, rfl⟩
    have hcount' : ∀ ip' ∈ delIps, (members.erase ip).count ip' = 1 := fun ip' hip' => by
      have hne : ip' ≠ ip := fun heq => hip (heq ▸ hip')
      rw [count_erase_of_ne hne]
      exact hcount ip' (mem_cons_of_mem _ hip')
    obtain ⟨⟨entries', members', hk, ht, hmembers, hentries⟩, hframe'⟩ := ih hkernel' htracked'
      (fun m hm => hfamily m ((herased m).mp hm).1) hcount' hnodup
    have hrun : s.delMembersFromSet name (ip :: delIps) = (s.delMemberFromSet name ip).delMembersFromSet name delIps := by
      rw [State.delMembersFromSet, foldl_cons, if_pos hin]
      rfl
    rw [hrun]
    refine ⟨⟨entries', members', hk, ht, fun m => ?_, fun b => ?_⟩, fun n hn => ?_⟩
    · rw [hmembers, herased, mem_cons, not_or, and_assoc]
    · rw [hentries, Finset.mem_erase, forall_mem_cons, and_comm (a := b ≠ network ip), and_assoc, ne_comm]
    · exact ⟨(hframe' n hn).1.trans (hframe n hn).1, (hframe' n hn).2.trans (hframe n hn).2⟩

/-! ## 7. The calls -/

section

variable {listOf : List Cidr → List Cidr}

/-- **A set that is changed member by member.** -/
theorem small_becomes {s s₁ : State} {name : Str} {ks : KernelSet} {members memberIps addIps delIps : List Cidr}
    (hkernel : Dict.get s.kernel name = some ks) (htracked : s.ipsetSets.get name = some members)
    (hdenotes : Denotes ks members)
    (hadd : addIps.Perm (memberIps.filter fun ip => ip ∉ members).dedup)
    (hdel : delIps.Perm (members.filter fun ip => ip ∉ memberIps).dedup)
    (hok : ∀ m ∈ members, m ∉ memberIps → members.count m = 1 ∧ ∀ ip ∈ memberIps, network ip ≠ network m)
    (h : s.addMembersToSet name addIps = some s₁) : Becomes s (s₁.delMembersFromSet name delIps) name memberIps := by
  obtain ⟨v6, entries⟩ := ks
  have hmemAdd (m : Cidr) : m ∈ addIps ↔ m ∈ memberIps ∧ m ∉ members := by
    rw [hadd.mem_iff, mem_dedup, mem_filter, decide_eq_true_eq]
  have hmemDel (m : Cidr) : m ∈ delIps ↔ m ∈ members ∧ m ∉ memberIps := by
    rw [hdel.mem_iff, mem_dedup, mem_filter, decide_eq_true_eq]
  obtain ⟨⟨entries₁, hk₁, ht₁, hd₁⟩, hframe₁⟩ := addMembersToSet_eq hkernel htracked hdenotes
    (fun ip hip => ((hmemAdd ip).mp hip).2) (hadd.nodup_iff.mpr (nodup_dedup _)) h
  have hcount : ∀ ip ∈ delIps, (members ++ addIps).count ip = 1 := fun ip hip => by
    obtain ⟨hmem, hnot⟩ := (hmemDel ip).mp hip
    have hzero : addIps.count ip = 0 := count_eq_zero.mpr fun hh => hnot ((hmemAdd ip).mp hh).1
    rw [count_append, (hok ip hmem hnot).1, hzero]
  obtain ⟨⟨entries₂, members₂, hk₂, ht₂, hmem₂, hent₂⟩, hframe₂⟩ := delMembersFromSet_eq hk₁ ht₁ hd₁.family hcount
    (hdel.nodup_iff.mpr (nodup_dedup _))
  have hmembers (m : Cidr) : m ∈ members₂ ↔ m ∈ memberIps := by
    rw [hmem₂, mem_append, hmemAdd, hmemDel]
    by_cases hm : m ∈ members
    · by_cases hip : m ∈ memberIps <;> simp [hm, hip]
    · by_cases hip : m ∈ memberIps <;> simp [hm, hip]
  refine ⟨⟨_, members₂, hk₂, ht₂, ⟨fun b => ?_, fun m hm => hd₁.family m ((hmem₂ m).mp hm).1⟩, hmembers⟩, fun n hn hmirrors => ?_⟩
  · rw [hent₂, hd₁.entries]
    constructor
    · rintro ⟨⟨m, hm, rfl⟩, hkept⟩
      exact ⟨m, (hmem₂ m).mpr ⟨hm, fun hdeleted => hkept m hdeleted rfl⟩, rfl⟩
    · rintro ⟨m, hm, rfl⟩
      refine ⟨⟨m, ((hmem₂ m).mp hm).1, rfl⟩, fun ip hip heq => ?_⟩
      obtain ⟨hmem, hnot⟩ := (hmemDel ip).mp hip
      exact (hok ip hmem hnot).2 m ((hmembers m).mp hm) heq.symm
  · exact hmirrors.of_get ((hframe₂ n hn).1.trans (hframe₁ n hn).1) ((hframe₂ n hn).2.trans (hframe₁ n hn).2)

/-- **What a call does to its set**, from a state in which all sets are mirrored. -/
theorem setMembers_becomes (hlist : ∀ l, (listOf l).Perm l) {s s' : State} {id ethertype : Str} {ips addIps delIps : List Cidr}
    (hmirrors : MirrorsAt s (getName id ethertype)) (hok : StepOk s (.setMembers id ethertype ips))
    (h : s.setMembers listOf id ethertype ips = some (s', addIps, delIps)) :
    Becomes s s' (getName id ethertype) (sanitizeAddresses ips) := by
  obtain ⟨hsmall, hfree⟩ := hok
  unfold State.setMembers at h
  generalize getName id ethertype = name at *
  generalize sanitizeAddresses ips = memberIps at *
  dsimp only at h
  cases htracked : s.ipsetSets.get name with
  | none =>
    have hnotSmall : ¬ Small s name memberIps := fun hh => by
      have hsome := hh.1
      rw [htracked] at hsome
      cases hsome
    rw [if_pos (Or.inr (Or.inr htracked))] at h
    obtain ⟨s₂, hmutate, heq⟩ := map_eq_some_iff.mp h
    obtain rfl := congrArg Prod.fst heq
    rw [State.setMembersMutate, htracked] at hmutate
    obtain ⟨s₁, hcreate, hrefresh⟩ := bind_eq_some_iff.mp hmutate
    exact created_becomes (hfree hnotSmall) hcreate hrefresh
  | some members =>
    obtain ⟨-, hnone⟩ | ⟨ks, members', hks, hget, hdenotes⟩ := hmirrors
    · rw [htracked] at hnone
      cases hnone
    obtain rfl : members = members' := Option.some.inj (htracked.symm.trans hget)
    have hlisted : s.tracked name = members := by
      rw [State.tracked, htracked]
      rfl
    have hadd : (s.newSetIps listOf name memberIps).Perm (memberIps.filter fun ip => ip ∉ members).dedup := by
      rw [State.newSetIps, hlisted]
      exact hlist _
    have hdel : (s.deletedSetIps listOf name memberIps).Perm (members.filter fun ip => ip ∉ memberIps).dedup := by
      rw [State.deletedSetIps, hlisted]
      exact hlist _
    rw [hlisted] at hsmall
    by_cases hdiff : s.newSetIps listOf name memberIps ≠ [] ∨ s.deletedSetIps listOf name memberIps ≠ [] ∨
        s.ipsetSets.get name = none
    · rw [if_pos hdiff] at h
      obtain ⟨s₂, hmutate, heq⟩ := map_eq_some_iff.mp h
      obtain rfl := congrArg Prod.fst heq
      rw [State.setMembersMutate, htracked] at hmutate
      dsimp only at hmutate
      by_cases hfew : (s.newSetIps listOf name memberIps).length + (s.deletedSetIps listOf name memberIps).length < 5
      · rw [if_pos hfew] at hmutate
        obtain ⟨s₁, hadds, rfl⟩ := map_eq_some_iff.mp hmutate
        rw [hadd.length_eq, hdel.length_eq] at hfew
        refine small_becomes hks htracked hdenotes hadd hdel (hsmall ⟨by rw [htracked]; rfl, ?_⟩) hadds
        rw [hlisted]
        exact hfew
      · rw [if_neg hfew] at hmutate
        rw [hadd.length_eq, hdel.length_eq] at hfew
        refine refreshSet_becomes (hfree fun hh => hfew ?_) hmutate
        have hlength := hh.2
        rw [hlisted] at hlength
        exact hlength
    · -- nothing to do
      rw [if_neg hdiff] at h
      obtain rfl := congrArg Prod.fst (Option.some.inj h)
      obtain ⟨hnoAdd, hnoDel, -⟩ : s.newSetIps listOf name memberIps = [] ∧ s.deletedSetIps listOf name memberIps = [] ∧ _ :=
        ⟨not_not.mp fun hh => hdiff (Or.inl hh), not_not.mp fun hh => hdiff (Or.inr (Or.inl hh)), trivial⟩
      refine ⟨⟨ks, members, hks, htracked, hdenotes, fun m => ⟨fun hm => ?_, fun hm => ?_⟩⟩, fun _ _ hh => hh⟩
      · by_contra hnot
        have hin := hdel.mem_iff.mpr (mem_dedup.mpr (mem_filter.mpr ⟨hm, decide_eq_true hnot⟩))
        rw [hnoDel] at hin
        cases hin
      · by_contra hnot
        have hin := hadd.mem_iff.mpr (mem_dedup.mpr (mem_filter.mpr ⟨hm, decide_eq_true hnot⟩))
        rw [hnoAdd] at hin
        cases hin

/-- **Sanitized addresses** cover what the addresses cover. -/
theorem sanitize_covers (ips : List Cidr) (a : ℕ) :
    (∃ m ∈ sanitizeAddresses ips, (network m).Has a) ↔ ∃ ip ∈ ips, (network ip).Has a := by
  have hsame (ip : Cidr) : (∃ m ∈ sanitizeAddresses [ip], (network m).Has a) ↔ (network ip).Has a := by
    obtain ⟨v6, value, prefixlen, hvalue, hprefixlen⟩ := ip
    rw [sanitizeAddresses, flatMap_singleton]
    by_cases hzero : prefixlen = 0
    · subst hzero
      have hwhole (k : ℕ) (hk : k + 1 = width v6) : (Block.mk k 0).Has a ∨ (Block.mk k 1).Has a ↔
          (network ⟨v6, value, 0, hvalue, hprefixlen⟩).Has a := by
        have hnetwork : network ⟨v6, value, 0, hvalue, hprefixlen⟩ = ⟨k + 1, 0⟩ := by
          rw [network, Cidr.host]
          dsimp only
          rw [Nat.sub_zero, Nat.div_eq_of_lt hvalue, hk]
        rw [hnetwork]
        exact (Block.has_succ (k := k) (i := 0)).symm
      rw [if_pos rfl]
      cases v6 with
      | false =>
        rw [← hwhole 31 rfl]
        simp only [exists_mem_cons_iff, not_mem_nil, false_and, exists_false, or_false]
        exact Iff.rfl
      | true =>
        rw [← hwhole 127 rfl]
        simp only [exists_mem_cons_iff, not_mem_nil, false_and, exists_false, or_false]
        exact Iff.rfl
    · rw [if_neg hzero]
      simp only [mem_singleton, exists_eq_left]
  constructor
  · rintro ⟨m, hm, ha⟩
    obtain ⟨ip, hip, hm⟩ := mem_flatMap.mp hm
    exact ⟨ip, hip, (hsame ip).mp ⟨m, by rw [sanitizeAddresses, flatMap_singleton]; exact hm, ha⟩⟩
  · rintro ⟨ip, hip, ha⟩
    obtain ⟨m, hm, ha⟩ := (hsame ip).mpr ha
    rw [sanitizeAddresses, flatMap_singleton] at hm
    exact ⟨m, mem_flatMap.mpr ⟨ip, hip, hm⟩, ha⟩

/-- Each address has a member of its version. -/
theorem sanitize_family {ips : List Cidr} {ip : Cidr} (hip : ip ∈ ips) : ∃ m ∈ sanitizeAddresses ips, m.v6 = ip.v6 := by
  obtain ⟨v6, value, prefixlen, hvalue, hprefixlen⟩ := ip
  by_cases hzero : prefixlen = 0
  · cases v6 with
    | false =>
      refine ⟨⟨false, 0, 1, by decide, by decide⟩, mem_flatMap.mpr ⟨_, hip, ?_⟩, rfl⟩
      rw [if_pos hzero]
      exact mem_cons_self
    | true =>
      refine ⟨⟨true, 0, 1, by decide, by decide⟩, mem_flatMap.mpr ⟨_, hip, ?_⟩, rfl⟩
      rw [if_pos hzero]
      exact mem_cons_self
  · refine ⟨⟨v6, value, prefixlen, hvalue, hprefixlen⟩, mem_flatMap.mpr ⟨_, hip, ?_⟩, rfl⟩
    rw [if_neg hzero]
    exact mem_cons_self

theorem Becomes.shows {s s' : State} {name : Str} {ips : List Cidr} (h : Becomes s s' name (sanitizeAddresses ips)) :
    ∃ ks members, Shows s' name ips ks members := by
  obtain ⟨ks, members, hks, htracked, hdenotes, hmembers⟩ := h.here
  have hcovers (a : ℕ) : (∃ m ∈ members, (network m).Has a) ↔ ∃ ip ∈ ips, (network ip).Has a := by
    rw [← sanitize_covers ips a]
    exact exists_congr fun m => and_congr_left' (hmembers m)
  refine ⟨ks, members, hks, htracked, fun ip hip => ?_, fun a => ?_, hcovers⟩
  · obtain ⟨m, hm, hv6⟩ := sanitize_family hip
    rw [← hv6]
    exact hdenotes.family m ((hmembers m).mpr hm)
  · rw [← hcovers]
    constructor
    · rintro ⟨b, hb, ha⟩
      obtain ⟨m, hm, rfl⟩ := (hdenotes.entries b).mp hb
      exact ⟨m, hm, ha⟩
    · rintro ⟨m, hm, ha⟩
      exact ⟨network m, (hdenotes.entries _).mpr ⟨m, hm, rfl⟩, ha⟩

/-- A set that is destroyed is gone in both. -/
theorem destroySet_mirrors {s : State} (hmirror : ∀ n, MirrorsAt s n) (name : Str) (forced : Bool) (n : Str) :
    MirrorsAt (s.destroySet name forced) n := by
  unfold State.destroySet
  split_ifs
  · by_cases hn : name = n
    · exact Or.inl ⟨by rw [Dict.get_erase, if_pos hn], by rw [Dict.get_erase, if_pos hn]⟩
    · refine (hmirror n).of_get ?_ ?_
      · rw [Dict.get_erase, if_neg hn]
      · rw [Dict.get_erase, if_neg hn]
  · exact hmirror n

/-- **Every call that meets the condition** leaves all sets mirrored. -/
theorem step_mirrors (hlist : ∀ l, (listOf l).Perm l) {s s' : State} {a : Action} (hmirror : ∀ n, MirrorsAt s n)
    (hok : StepOk s a) (hstep : step listOf s a = some s') (n : Str) : MirrorsAt s' n := by
  cases a with
  | setMembers id ethertype ips =>
    obtain ⟨⟨s₁, addIps, delIps⟩, hset, rfl⟩ := map_eq_some_iff.mp hstep
    obtain ⟨⟨ks, members, hks, htracked, hdenotes, -⟩, helsewhere⟩ := setMembers_becomes hlist (hmirror _) hok hset
    by_cases hn : n = getName id ethertype
    · rw [hn]
      exact Or.inr ⟨ks, members, hks, htracked, hdenotes⟩
    · exact helsewhere n hn (hmirror n)
  | destroy id ethertype forced =>
    obtain rfl := Option.some.inj hstep
    exact destroySet_mirrors hmirror _ forced n

end

/-! ## 8. Host bits and duplicates -/

/-- The text 10.0.u.v/24, with `n` for the last two numbers. -/
def slash24 (n : ℕ) (h : 10 * 2 ^ 24 + n < 2 ^ 32) : Cidr := ⟨false, 10 * 2 ^ 24 + n, 24, h, by decide⟩

/-- 10.0.0.1/24, 10.0.0.2/24 and 10.0.1.0/24. -/
def one : Cidr := slash24 1 (by decide)
def two : Cidr := slash24 2 (by decide)
def other : Cidr := slash24 256 (by decide)

def ipv4 : Str := ['I', 'P', 'v', '4']

end Mitaka.Neutron.IpsetManager
