/-
  Subject: ironic/common/hash_ring.py: `HashRing`.

  From the partition of a key the ring is a list of hosts (`HashRing.around`), and the answer
  is its first hosts that differ and are not ignored. Where the points of different hosts do
  not collide, the list of a smaller ring is that of the larger one without the hosts that
  left (`around_filter`), so ignoring a host and removing it are the same.
-/
import Mitaka.Lib.Dict
import Mitaka.Lib.Probe

namespace Mitaka.Ironic

open List

/-! ## 1. The ring -/

structure HashRing (Host : Type) where
  hosts : Finset Host
  replicas : ℕ
  hostHashes : Dict ℕ Host
  partitions : List ℕ

section Ring

variable {Host : Type} [DecidableEq Host] (key : Host → List UInt8) (hash : List UInt8 → ℕ) (exponent : ℕ)

/-- The value of point `p` of a host. The hash object has seen the key once before the loop. -/
def hashedKey (host : Host) (p : ℕ) : ℕ := hash (replicate (p + 2) (key host)).flatten

/-- The points of the hosts, in the order of the two loops. -/
def hostPoints (hosts : List Host) : List (ℕ × Host) :=
  hosts.flatMap fun host => (List.range (2 ^ exponent)).map fun p => (hashedKey key hash host p, host)

/-- `HashRing(hosts, replicas)`. -/
def HashRing.init (hosts : List Host) (replicas : ℕ) : HashRing Host :=
  let hostHashes : Dict ℕ Host := (hostPoints key hash exponent hosts).foldl (fun d p => Dict.set d p.1 p.2) []
  { hosts := hosts.toFinset
    replicas := if replicas ≤ hosts.length then replicas else hosts.length
    hostHashes := hostHashes
    partitions := (hostHashes.map Prod.fst).insertionSort (· ≤ ·) }

/-- `bisect.bisect` in a sorted list. -/
def bisect (keys : List ℕ) (key : ℕ) : ℕ := (keys.takeWhile (· ≤ key)).length

/-- `_get_partition`. -/
def HashRing.getPartition (ring : HashRing Host) (data : List UInt8) : ℕ :=
  let position := bisect ring.partitions (hash data)
  if position < ring.partitions.length then position else 0

/-- `_get_host`. -/
def HashRing.getHost (ring : HashRing Host) (partition : ℕ) : Option Host :=
  (ring.partitions[partition]?).bind ring.hostHashes.get

/-- The loop over the replicas, `n` of them left. `fuel` bounds the rounds of the inner loop. -/
def HashRing.selectHosts (ring : HashRing Host) (fuel : ℕ) (ignoreHosts : Finset Host) :
    ℕ → ℕ → List Host → Option (List Host)
  | 0, _, hosts => some hosts
  | n + 1, partition, hosts =>
    if hosts.length + ignoreHosts.card = ring.hosts.card then some hosts
    else
      match probe ring.getHost ring.partitions.length (fun host => host ∈ hosts ∨ host ∈ ignoreHosts) fuel partition with
      | none => none
      | some (partition, host) => ring.selectHosts fuel ignoreHosts n partition (hosts ++ [host])

/-- `get_hosts`; nothing where the inner loop has not ended. -/
def HashRing.getHosts (ring : HashRing Host) (fuel : ℕ) (data : List UInt8) (ignoreHosts : List Host) :
    Option (List Host) :=
  ring.selectHosts fuel (ignoreHosts.toFinset ∩ ring.hosts) ring.replicas (ring.getPartition hash data) []

end Ring

/-! ## 2. The hosts in the order of the ring -/

section Points

variable {Host : Type} [DecidableEq Host] {key : Host → List UInt8} {hash : List UInt8 → ℕ} {exponent : ℕ}

variable (key hash exponent) in
/-- The value is a point of the host. -/
def IsPoint (host : Host) (k : ℕ) : Prop := ∃ p < 2 ^ exponent, hashedKey key hash host p = k

variable (key hash exponent) in
/-- The points of different hosts do not collide. -/
def Apart (hosts : List Host) : Prop :=
  ∀ h ∈ hosts, ∀ h' ∈ hosts, ∀ k, IsPoint key hash exponent h k → IsPoint key hash exponent h' k → h = h'

variable {hosts : List Host}

omit [DecidableEq Host] in
theorem mem_hostPoints {k : ℕ} {host : Host} :
    (k, host) ∈ hostPoints key hash exponent hosts ↔ host ∈ hosts ∧ IsPoint key hash exponent host k := by
  rw [hostPoints, mem_flatMap]
  constructor
  · rintro ⟨h, hh, hmem⟩
    obtain ⟨p, hp, heq⟩ := List.mem_map.mp hmem
    cases heq
    exact ⟨hh, p, mem_range.mp hp, rfl⟩
  · rintro ⟨hh, p, hp, rfl⟩
    exact ⟨host, hh, List.mem_map.mpr ⟨p, mem_range.mpr hp, rfl⟩⟩

/-- **The host at a point.** -/
theorem get_hostHashes (hapart : Apart key hash exponent hosts) (r k : ℕ) (host : Host) :
    (HashRing.init key hash exponent hosts r).hostHashes.get k = some host ↔
      host ∈ hosts ∧ IsPoint key hash exponent host k := by
  obtain ⟨hmem, hsome, _⟩ := Dict.get_foldl_set (hostPoints key hash exponent hosts) [] k
  have hpoint {h : Host} (h' : (HashRing.init key hash exponent hosts r).hostHashes.get k = some h) :
      h ∈ hosts ∧ IsPoint key hash exponent h k := by
    rcases hmem h h' with hm | hm
    · exact mem_hostPoints.mp hm
    · exact nomatch hm
  constructor
  · exact hpoint
  · intro h
    obtain ⟨h', hget⟩ := Option.isSome_iff_exists.mp (hsome ⟨host, mem_hostPoints.mpr h⟩)
    have heq := hapart host h.1 h' (hpoint hget).1 k h.2 (hpoint hget).2
    rw [heq]
    exact hget

theorem mem_partitions {r k : ℕ} :
    k ∈ (HashRing.init key hash exponent hosts r).partitions ↔ ∃ host ∈ hosts, IsPoint key hash exponent host k := by
  obtain ⟨hmem, hsome, _⟩ := Dict.get_foldl_set (hostPoints key hash exponent hosts) [] k
  rw [HashRing.init, mem_insertionSort, Dict.mem_keys_iff]
  constructor
  · intro h
    obtain ⟨host, hget⟩ := Option.isSome_iff_exists.mp h
    rcases hmem host hget with hm | hm
    · exact ⟨host, mem_hostPoints.mp hm⟩
    · exact nomatch hm
  · rintro ⟨host, h⟩
    exact hsome ⟨host, mem_hostPoints.mpr h⟩

theorem partitions_pairwise (hosts : List Host) (r : ℕ) :
    (HashRing.init key hash exponent hosts r).partitions.Pairwise (· < ·) := by
  have hnodup (l : List (ℕ × Host)) (d : Dict ℕ Host) (hd : Dict.KeysNodup d) :
      Dict.KeysNodup (l.foldl (fun d p => Dict.set d p.1 p.2) d) := by
    induction l generalizing d with
    | nil => exact hd
    | cons p l ih => exact ih _ (hd.set p.1 p.2)
  have hkeys : (HashRing.init key hash exponent hosts r).partitions.Nodup :=
    (perm_insertionSort _ _).nodup_iff.mpr (hnodup _ [] nodup_nil)
  exact ((pairwise_insertionSort _ _).and hkeys).imp fun h => lt_of_le_of_ne h.1 h.2

/-- The hosts in the order of the partitions. -/
def HashRing.served (ring : HashRing Host) : List Host := ring.partitions.filterMap ring.hostHashes.get

variable (hash) in
/-- The hosts from the partition of a key on, around the ring. -/
def HashRing.around (ring : HashRing Host) (data : List UInt8) : List Host := ring.served.rotate (ring.getPartition hash data)

omit [DecidableEq Host] in
theorem map_eq_filterMap {f : ℕ → Option Host} {l : List ℕ} (h : ∀ k ∈ l, (f k).isSome) :
    l.map f = (l.filterMap f).map some := by
  induction l with
  | nil => rfl
  | cons k l ih =>
    obtain ⟨host, hk⟩ := Option.isSome_iff_exists.mp (h k mem_cons_self)
    rw [map_cons, filterMap_cons_some hk, map_cons, hk, ih fun k hk => h k (mem_cons_of_mem _ hk)]

/-- Every partition has a host. -/
theorem isSome_hostHashes (hapart : Apart key hash exponent hosts) {r k : ℕ}
    (hk : k ∈ (HashRing.init key hash exponent hosts r).partitions) :
    ((HashRing.init key hash exponent hosts r).hostHashes.get k).isSome := by
  obtain ⟨host, hhost⟩ := mem_partitions.mp hk
  rw [(get_hostHashes hapart r k host).mpr hhost]
  rfl

theorem getHost_eq (hapart : Apart key hash exponent hosts) (r partition : ℕ) :
    (HashRing.init key hash exponent hosts r).getHost partition =
      (HashRing.init key hash exponent hosts r).served[partition]? := by
  have h := map_eq_filterMap fun k (hk : k ∈ (HashRing.init key hash exponent hosts r).partitions) =>
    isSome_hostHashes hapart hk
  have hget := congrArg (fun l : List (Option Host) => l[partition]?) h
  simp only [getElem?_map] at hget
  rw [HashRing.getHost, HashRing.served]
  cases hp : (HashRing.init key hash exponent hosts r).partitions[partition]? with
  | none =>
    rw [hp] at hget
    exact (Option.map_eq_none_iff.mp hget.symm).symm
  | some k =>
    rw [hp] at hget
    obtain ⟨host, hhost, hk⟩ := Option.map_eq_some_iff.mp hget.symm
    rw [Option.bind_some, hhost, hk]

theorem length_served (hapart : Apart key hash exponent hosts) (r : ℕ) :
    (HashRing.init key hash exponent hosts r).served.length =
      (HashRing.init key hash exponent hosts r).partitions.length := by
  have h := congrArg List.length (map_eq_filterMap
    fun k (hk : k ∈ (HashRing.init key hash exponent hosts r).partitions) => isSome_hostHashes hapart hk)
  rw [length_map, length_map] at h
  exact h.symm

/-- The partitions behind the key come first, then those before it. -/
theorem rotate_bisect {l : List ℕ} (hl : l.Pairwise (· < ·)) (x : ℕ) :
    l.rotate (if bisect l x < l.length then bisect l x else 0) = l.filter (x < ·) ++ l.filter (· ≤ x) := by
  have hsplit : bisect l x = (l.filter (· ≤ x)).length ∧ l.take (bisect l x) = l.filter (· ≤ x) ∧
      l.drop (bisect l x) = l.filter (x < ·) := by
    induction l with
    | nil => exact ⟨rfl, rfl, rfl⟩
    | cons k l ih =>
      obtain ⟨hk, hl⟩ := pairwise_cons.mp hl
      rcases Nat.lt_or_ge x k with hx | hx
      · -- every further point is behind the key
        have hall : l.filter (· ≤ x) = [] := by
          refine filter_eq_nil_iff.mpr fun y hy => ?_
          simpa using hx.trans (hk y hy)
        have hall' : l.filter (x < ·) = l := filter_eq_self.mpr fun y hy => by simpa using hx.trans (hk y hy)
        simp [bisect, hx, Nat.not_le.mpr hx, hall, hall']
      · obtain ⟨h1, h2, h3⟩ := ih hl
        simp [bisect, hx, Nat.not_lt.mpr hx] at h1 h2 h3 ⊢
        exact ⟨h1, h2, h3⟩
  obtain ⟨_, htake, hdrop⟩ := hsplit
  split_ifs with hlt
  · rw [rotate_eq_drop_append_take hlt.le, htake, hdrop]
  · rw [take_of_length_le (not_lt.mp hlt)] at htake
    rw [drop_eq_nil_of_le (not_lt.mp hlt)] at hdrop
    rw [rotate_zero, ← htake, ← hdrop, nil_append]

theorem around_eq (hapart : Apart key hash exponent hosts) (r : ℕ) (data : List UInt8) :
    (HashRing.init key hash exponent hosts r).around hash data =
      ((HashRing.init key hash exponent hosts r).partitions.filter (hash data < ·) ++
        (HashRing.init key hash exponent hosts r).partitions.filter (· ≤ hash data)).filterMap
          (HashRing.init key hash exponent hosts r).hostHashes.get := by
  refine map_injective_iff.mpr (Option.some_injective Host) ?_
  have hsome {k : ℕ} := isSome_hostHashes hapart (r := r) (k := k)
  rw [← rotate_bisect (partitions_pairwise hosts r), ← map_eq_filterMap fun k hk => hsome (mem_rotate.mp hk),
    map_rotate, map_eq_filterMap fun k hk => hsome hk]
  exact map_rotate _ _ _

/-- **The ring without some of the hosts**, in whatever order they are given. -/
theorem around_filter {hosts hosts' ignore : List Host} (hapart : Apart key hash exponent hosts)
    (hmem : ∀ host, host ∈ hosts' ↔ host ∈ hosts ∧ host ∉ ignore) (r r' : ℕ) (data : List UInt8) :
    (HashRing.init key hash exponent hosts' r').around hash data =
      ((HashRing.init key hash exponent hosts r).around hash data).filter (· ∉ ignore) := by
  have hapart' : Apart key hash exponent hosts' := fun h hh h' hh' =>
    hapart h ((hmem h).mp hh).1 h' ((hmem h').mp hh').1
  let stays (k : ℕ) : Bool := ((HashRing.init key hash exponent hosts r).hostHashes.get k).any (· ∉ ignore)
  have hstays (k : ℕ) : stays k = true ↔ ∃ host ∈ hosts', IsPoint key hash exponent host k := by
    simp only [stays, Option.any_eq_true, get_hostHashes hapart, decide_eq_true_eq, hmem]
    exact exists_congr fun host => ⟨fun h => ⟨⟨h.1.1, h.2⟩, h.1.2⟩, fun h => ⟨⟨h.1.1, h.2⟩, h.1.2⟩⟩
  have hpartitions : (HashRing.init key hash exponent hosts' r').partitions =
      (HashRing.init key hash exponent hosts r).partitions.filter stays := by
    refine (partitions_pairwise hosts' r').eq_of_mem_iff ((partitions_pairwise hosts r).filter _) fun k => ?_
    rw [mem_filter, hstays, mem_partitions, mem_partitions]
    exact ⟨fun h => ⟨h.imp fun host hh => ⟨((hmem host).mp hh.1).1, hh.2⟩, h⟩, And.right⟩
  have hget (l : List ℕ) : (l.filter stays).filterMap (HashRing.init key hash exponent hosts' r').hostHashes.get =
      (l.filterMap (HashRing.init key hash exponent hosts r).hostHashes.get).filter (· ∉ ignore) := by
    rw [filterMap_filter, filter_filterMap]
    refine filterMap_congr fun k _ => ?_
    split_ifs with hk
    · obtain ⟨host, hk, hhost⟩ := (Option.any_eq_true _ _).mp hk
      have hk' := (get_hostHashes hapart r k host).mp hk
      rw [hk, Option.filter_some, if_pos hhost]
      exact (get_hostHashes hapart' r' k host).mpr ⟨(hmem host).mpr ⟨hk'.1, of_decide_eq_true hhost⟩, hk'.2⟩
    · refine (Option.filter_eq_none_iff.mpr fun host hk' => ?_).symm
      exact fun hhost => hk ((Option.any_eq_true _ _).mpr ⟨host, hk', hhost⟩)
  rw [around_eq hapart', around_eq hapart, hpartitions, filter_comm, filter_comm (p := (· ≤ hash data)),
    ← filter_append, hget]

/-- Every host has a point. -/
theorem mem_around (hapart : Apart key hash exponent hosts) (r : ℕ) (data : List UInt8)
    {host : Host} : host ∈ (HashRing.init key hash exponent hosts r).around hash data ↔ host ∈ hosts := by
  rw [HashRing.around, mem_rotate, HashRing.served, mem_filterMap]
  constructor
  · rintro ⟨k, _, hk⟩
    exact ((get_hostHashes hapart r k host).mp hk).1
  · intro hhost
    have hpoint : IsPoint key hash exponent host (hashedKey key hash host 0) := ⟨0, Nat.two_pow_pos exponent, rfl⟩
    exact ⟨_, mem_partitions.mpr ⟨host, hhost, hpoint⟩, (get_hostHashes hapart r _ host).mpr ⟨hhost, hpoint⟩⟩

/-! ## 3. `get_hosts` -/

/-- The hosts in the order of the ring from `start` on, without those that are ignored. -/
def HashRing.rest (ring : HashRing Host) (ignore : Finset Host) (start : ℕ) : List Host :=
  (ring.served.rotate start).filter (· ∉ ignore)

/-- **The loop over the replicas** finds the first hosts that differ and are not ignored. -/
theorem selectHosts_spec {ring : HashRing Host} {ignore : Finset Host} {start fuel : ℕ}
    (hget : ring.getHost = fun i => ring.served[i]?) (hlen : ring.served.length = ring.partitions.length)
    (hfuel : ring.partitions.length ≤ fuel)
    (hcard : (ring.rest ignore start).toFinset.card + ignore.card = ring.hosts.card)
    (n : ℕ) {q i : ℕ} (hi : i ≤ (ring.rest ignore start).toFinset.card)
    (hq : Probed ring.served (fun host => host ∈ firstDistinct (ring.rest ignore start) i ∨ host ∈ ignore) start q) :
    ring.selectHosts fuel ignore n q (firstDistinct (ring.rest ignore start) i) =
      some (firstDistinct (ring.rest ignore start) (i + n)) := by
  induction n generalizing q i with
  | zero => rfl
  | succ n ih =>
    have hsize := length_firstDistinct (ring.rest ignore start) i
    rw [Nat.min_eq_left hi] at hsize
    rw [HashRing.selectHosts, hsize]
    rcases hi.eq_or_lt with heq | hlt
    · -- all hosts are chosen or ignored
      rw [if_pos (by rw [heq, hcard])]
      rw [← firstDistinct_min _ (i + (n + 1)), ← heq, Nat.min_eq_right (Nat.le_add_right i _)]
    · rw [if_neg (by omega)]
      obtain ⟨x, hx⟩ := find_firstDistinct hlt
      have hfind : (ring.served.rotate start).find?
          (fun host => !decide (host ∈ firstDistinct (ring.rest ignore start) i ∨ host ∈ ignore)) = some x := by
        rw [← hx]
        conv_rhs => rw [HashRing.rest, find?_filter]
        congr 1
        funext host
        rw [← decide_not]
        refine decide_eq_decide.mpr ?_
        rw [decide_eq_true_eq, decide_eq_true_eq, not_or, and_comm]
        rfl
      obtain ⟨q', hprobe, hnext⟩ := hq.next hfind (hlen ▸ hfuel)
      rw [hget, ← hlen, hprobe]
      simp only
      rw [← firstDistinct_find hx, ← Nat.add_assoc, Nat.add_right_comm]
      refine ih hlt (hnext _ fun y hy => ?_)
      rw [decide_eq_true_eq] at hy ⊢
      rw [firstDistinct_find hx]
      exact hy.imp_left (mem_append_left _)

/-- `get_hosts` returns `answer`. -/
def HashRing.Returns (hash : List UInt8 → ℕ) (ring : HashRing Host) (data : List UInt8) (ignoreHosts answer : List Host) :
    Prop :=
  ∀ fuel, ring.partitions.length ≤ fuel → ring.getHosts hash fuel data ignoreHosts = some answer

/-- **What `get_hosts` returns.** -/
theorem returns_firstDistinct (hapart : Apart key hash exponent hosts) (r : ℕ)
    (data : List UInt8) (ignore : List Host) :
    (HashRing.init key hash exponent hosts r).Returns hash data ignore
      (firstDistinct (((HashRing.init key hash exponent hosts r).around hash data).filter (· ∉ ignore)) r) := by
  intro fuel hfuel
  set ring := HashRing.init key hash exponent hosts r with hring
  have hmem {host : Host} : host ∈ ring.around hash data ↔ host ∈ hosts := mem_around hapart r data
  have hrest : ring.rest (ignore.toFinset ∩ ring.hosts) (ring.getPartition hash data) =
      (ring.around hash data).filter (· ∉ ignore) := by
    refine filter_congr fun host hhost => decide_eq_decide.mpr (not_congr ?_)
    rw [Finset.mem_inter, List.mem_toFinset]
    exact and_iff_left (List.mem_toFinset.mpr (hmem.mp hhost))
  have hset : (ring.rest (ignore.toFinset ∩ ring.hosts) (ring.getPartition hash data)).toFinset =
      ring.hosts \ ignore.toFinset := by
    ext host
    rw [hrest, List.mem_toFinset, mem_filter, decide_eq_true_eq, hmem, Finset.mem_sdiff, List.mem_toFinset]
    exact and_congr_left fun _ => List.mem_toFinset.symm
  have hcard : (ring.rest (ignore.toFinset ∩ ring.hosts) (ring.getPartition hash data)).toFinset.card +
      (ignore.toFinset ∩ ring.hosts).card = ring.hosts.card := by
    rw [hset, Finset.inter_comm]
    exact Finset.card_sdiff_add_card_inter _ _
  have hle : (ring.rest (ignore.toFinset ∩ ring.hosts) (ring.getPartition hash data)).toFinset.card ≤ hosts.length := by
    rw [hset]
    exact (Finset.card_le_card Finset.sdiff_subset).trans (toFinset_card_le _)
  have hlen : ring.served.length = ring.partitions.length := length_served hapart r
  have hreplicas : ring.replicas = min r hosts.length := by
    rw [hring, HashRing.init]
    exact (min_def r hosts.length).symm
  -- asking for more than there are hosts left makes no difference
  have hcount (l : List Host) (hl : l.toFinset.card ≤ hosts.length) :
      firstDistinct l ring.replicas = firstDistinct l r := by
    rw [← firstDistinct_min, hreplicas, Nat.min_assoc, Nat.min_eq_right hl, firstDistinct_min]
  rw [← hrest, ← hcount _ hle, HashRing.getHosts]
  rcases Nat.eq_zero_or_pos ring.served.length with hzero | hpos
  · have hempty : hosts = [] := by
      refine eq_nil_iff_forall_not_mem.mpr fun host hhost => ?_
      have hin : host ∈ ring.served := mem_rotate.mp (hmem.mpr hhost)
      rw [length_eq_zero_iff.mp hzero] at hin
      exact nomatch hin
    have hnone : ring.replicas = 0 := by rw [hreplicas, hempty, length_nil, Nat.min_zero]
    rw [hnone]
    rfl
  · have hstart : ring.getPartition hash data < ring.served.length := by
      rw [HashRing.getPartition, hlen]
      rw [hlen] at hpos
      split_ifs with h
      · exact h
      · exact hpos
    have h := selectHosts_spec (funext (getHost_eq hapart r)) hlen hfuel hcard ring.replicas (Nat.zero_le _)
      (Probed.refl hstart _)
    rwa [Nat.zero_add] at h

theorem firstDistinct_filter_one (l : List Host) (host : Host) :
    firstDistinct l 1 = firstDistinct (l.filter (· ≠ host)) 1 ∨ firstDistinct l 1 = [host] := by
  rw [firstDistinct_one, firstDistinct_one]
  cases l with
  | nil => exact .inl rfl
  | cons x l =>
    rcases eq_or_ne x host with rfl | hx
    · exact .inr rfl
    · rw [filter_cons, if_pos (decide_eq_true hx)]
      exact .inl rfl

/-- **The hash ring is consistent.** For distinct hosts whose points do not collide, `get_hosts` returns as many hosts as
were asked for and are not ignored, all of them different and none ignored: what the ring of the hosts that are not
ignored returns, in whatever order the hosts are given. With one replica a host that is removed or added changes
nothing but the answers that are this host. -/
theorem getHosts_consistent {hosts : List Host} (hnodup : hosts.Nodup) (hapart : Apart key hash exponent hosts)
    (r : ℕ) (data : List UInt8) (ignore : List Host) :
    (∃ answer, (HashRing.init key hash exponent hosts r).Returns hash data ignore answer ∧
      answer.length = min r (hosts.filter (· ∉ ignore)).length ∧ answer.Nodup ∧
      (∀ host ∈ answer, host ∈ hosts ∧ host ∉ ignore) ∧
      (∀ hosts', hosts'.Perm (hosts.filter (· ∉ ignore)) →
        (HashRing.init key hash exponent hosts' r).Returns hash data [] answer) ∧
      ∀ hosts', hosts'.Perm hosts → (HashRing.init key hash exponent hosts' r).Returns hash data ignore answer) ∧
    ∀ host ∈ hosts, ∃ answer answer', (HashRing.init key hash exponent hosts 1).Returns hash data [] answer ∧
      (HashRing.init key hash exponent (hosts.erase host) 1).Returns hash data [] answer' ∧
      (answer = answer' ∨ answer = [host]) := by
  have hsub {hosts' : List Host} (h : ∀ host ∈ hosts', host ∈ hosts) : Apart key hash exponent hosts' :=
    fun a ha b hb => hapart a (h a ha) b (h b hb)
  have hall (l : List Host) : l.filter (· ∉ []) = l := filter_eq_self.mpr fun _ _ => decide_eq_true not_mem_nil
  refine ⟨⟨_, returns_firstDistinct hapart r data ignore, ?_, nodup_firstDistinct _ r, fun host hhost => ?_,
    fun hosts' hperm => ?_, fun hosts' hperm => ?_⟩, fun host hhost => ?_⟩
  · rw [length_firstDistinct, ← toFinset_card_of_nodup (hnodup.filter _)]
    congr 2
    ext host
    rw [List.mem_toFinset, List.mem_toFinset, mem_filter, mem_filter, mem_around hapart]
  · have h := mem_filter.mp (mem_of_mem_firstDistinct hhost)
    exact ⟨(mem_around hapart r data).mp h.1, of_decide_eq_true h.2⟩
  · have hmem (host : Host) : host ∈ hosts' ↔ host ∈ hosts ∧ host ∉ ignore := by
      rw [hperm.mem_iff, mem_filter, decide_eq_true_eq]
    have h := returns_firstDistinct (hsub fun host h => ((hmem host).mp h).1) r data []
    rwa [around_filter hapart hmem r r data, hall] at h
  · have hmem (host : Host) : host ∈ hosts' ↔ host ∈ hosts ∧ host ∉ [] := by
      rw [hperm.mem_iff]
      exact (and_iff_left not_mem_nil).symm
    have h := returns_firstDistinct (hsub fun host h => ((hmem host).mp h).1) r data ignore
    rwa [around_filter hapart hmem r r data, hall] at h
  · have hmem (other : Host) : other ∈ hosts.erase host ↔ other ∈ hosts ∧ other ∉ [host] := by
      rw [hnodup.mem_erase_iff, mem_singleton, and_comm]
    have h := returns_firstDistinct hapart 1 data []
    have h' := returns_firstDistinct (hsub fun other h => ((hmem other).mp h).1) 1 data []
    rw [hall] at h h'
    rw [around_filter hapart hmem 1 1 data] at h'
    refine ⟨_, _, h, h', ?_⟩
    have hone := firstDistinct_filter_one ((HashRing.init key hash exponent hosts 1).around hash data) host
    simpa using hone

/-- **Hosts that leave the ring**, for any number of replicas: those of an answer that stay come first, in
their order, and no more join them than have left it. -/
theorem getHosts_removed (hapart : Apart key hash exponent hosts) {hosts' gone : List Host}
    (hmem : ∀ host, host ∈ hosts' ↔ host ∈ hosts ∧ host ∉ gone) (r : ℕ) (data : List UInt8) :
    ∃ answer answer', (HashRing.init key hash exponent hosts r).Returns hash data [] answer ∧
      (HashRing.init key hash exponent hosts' r).Returns hash data [] answer' ∧
      answer.filter (· ∉ gone) <+: answer' ∧ answer'.length ≤ answer.length := by
  have hall (l : List Host) : l.filter (· ∉ []) = l := filter_eq_self.mpr fun _ _ => decide_eq_true not_mem_nil
  have h := returns_firstDistinct hapart r data []
  have h' := returns_firstDistinct (fun a ha b hb => hapart a ((hmem a).mp ha).1 b ((hmem b).mp hb).1) r data []
  rw [hall] at h h'
  rw [around_filter hapart hmem r r data] at h'
  obtain ⟨m, hm, heq⟩ :=
    firstDistinct_filter ((HashRing.init key hash exponent hosts r).around hash data) (· ∉ gone) r
  refine ⟨_, _, h, h', heq ▸ firstDistinct_prefix _ hm, ?_⟩
  rw [length_firstDistinct, length_firstDistinct, toFinset_filter]
  exact min_le_min_left r (Finset.card_filter_le _ _)

omit [DecidableEq Host] in
/-- No two points have one value. -/
theorem apart_of_nodup (h : ((hostPoints key hash exponent hosts).map Prod.fst).Nodup) :
    Apart key hash exponent hosts := by
  intro a ha b hb k hka hkb
  have heq := inj_on_of_nodup_map h (mem_hostPoints.mpr ⟨ha, hka⟩) (mem_hostPoints.mpr ⟨hb, hkb⟩) rfl
  exact congrArg Prod.snd heq

end Points

/-- `str.encode('utf8')`. -/
def utf8 (s : String) : List UInt8 := s.toUTF8.data.toList

/-- `hashlib.md5` of some texts. -/
def md5Of (data : List UInt8) : ℕ :=
  (([("aa", 86590556343773185184676854182388058386), ("aaa", 95355999972893604581396806948474189832),
    ("bb", 44763031454153395597992990748105608828), ("bbb", 11926059861452379859592945895352493517),
    ("cc", 298007873705211094981943431744292596860), ("ccc", 209967041693036362285532363162557842809),
    ("x", 209794194358692857395451740504350025638)].map fun e => (utf8 e.1, e.2)).lookup data).getD 0

theorem getHosts_consistent_abc :
    ∃ answer, (HashRing.init utf8 md5Of 1 ["a", "b", "c"] 2).Returns md5Of (utf8 "x") ["b"] answer ∧
      answer.length = 2 := by
  have hapart : Apart utf8 md5Of 1 ["a", "b", "c"] := apart_of_nodup (by decide +kernel)
  obtain ⟨answer, h, hlen, _⟩ := (getHosts_consistent (by decide) hapart 2 (utf8 "x") ["b"]).1
  exact ⟨answer, h, hlen⟩

theorem getHosts_removed_b : ∃ answer answer',
    (HashRing.init utf8 md5Of 1 ["a", "b", "c"] 2).Returns md5Of (utf8 "x") [] answer ∧
      (HashRing.init utf8 md5Of 1 ["c", "a"] 2).Returns md5Of (utf8 "x") [] answer' ∧
      answer.filter (· ∉ ["b"]) <+: answer' ∧ answer'.length ≤ answer.length :=
  getHosts_removed (apart_of_nodup (by decide +kernel)) (by simp; grind) 2 (utf8 "x")

end Mitaka.Ironic
