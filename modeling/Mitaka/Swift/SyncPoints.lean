/-
  Subject: Sync points are sound: a point p that B has for A, or A for B, says that B
           has every row of A with a ROWID up to p.

  `Held` is that statement for one pair of databases. Databases only grow (`Later`),
  and a row inserted later has a ROWID beyond every point, so `Held` lasts. The
  invariant `PointsSound` says it of both sync tables and of what the passes have in their
  hands, stage by stage (`StageSound`).

  It rests on two things. Equal hashes mean equal tables (`CollisionFree`). And
  `get_replication_info` reads the hash and the highest ROWID one after the other:
  its two reads must see the same table (`Consistent`), else the point that a hash
  match hands over covers rows nobody sent (`sync_point_covers_unsent_row`).
-/
import Mitaka.Swift.ContainerConvergence
import Mitaka.Swift.DbReplicator

namespace Mitaka.Swift

/-! ## 1. Databases grow -/

/-- B has the row or a newer record of its name and policy. -/
def RowIn (r : ObjectRow) (db : ContainerDb) : Prop :=
  ∃ s, stamps r.createdAt = some s ∧ Dominated r.ident s db

/-- What holds of a database at every step. -/
structure Sane (md5 : Str → BitVec 128) (db : ContainerDb) : Prop where
  wellFormed : db.WellFormed
  audited : Audited md5 db

/-- `db'` is `db` some writes later. -/
structure Later (md5 : Str → BitVec 128) (db db' : ContainerDb) : Prop where
  id : db'.id = db.id
  sane : Sane md5 db'
  seq : db.seq ≤ db'.seq
  rows : ∀ r ∈ db'.rows, r ∈ db.rows ∨ db.seq < r.rowid
  rowIn : ∀ r, RowIn r db → RowIn r db'

variable {md5 : Str → BitVec 128} {db db' : ContainerDb}

theorem Later.refl (h : Sane md5 db) : Later md5 db db :=
  ⟨rfl, h, le_rfl, fun _ hr => Or.inl hr, fun _ hr => hr⟩

/-- Sync tables are no part of it. -/
theorem Later.syncs (h : Sane md5 db) (incoming outgoing : Dict Str Int) :
    Later md5 db { db with incomingSync := incoming, outgoingSync := outgoing } :=
  ⟨rfl, ⟨⟨h.wellFormed.sorted, h.wellFormed.bound, h.wellFormed.idents, h.wellFormed.canonical⟩,
    ⟨h.audited.hash, h.audited.stat, h.audited.keys⟩⟩, le_rfl, fun _ hr => Or.inl hr, fun _ hr => hr⟩

/-- **A merge is later.** -/
theorem Later.merge (h : Sane md5 db) {items adds : List Item} {source : Option Str}
    {order : DictOrder} (hstep : mergeItems md5 order db items source = some db')
    (hm : Merged db items source db' adds) : Later md5 db db' :=
  ⟨hm.id, ⟨hm.wellFormed h.wellFormed, (audited_mergeItems h.audited hstep).1⟩,
    hm.seq ▸ Nat.le_add_right _ _, fun _ hr => hm.rowid hr,
    fun _ ⟨s, hs, hd⟩ => ⟨s, hs, hm.dominated_mono h.wellFormed hd⟩⟩

/-- A merge has every row that was sent. -/
theorem Merged.rowIn {l : List ObjectRow} {adds : List Item} {source : Option Str}
    (hm : Merged db (l.map ObjectRow.toItem) source db' adds) (hwf : db.WellFormed) {r : ObjectRow}
    (hr : r ∈ l) (hc : Canonical r.createdAt) : RowIn r db' := by
  obtain ⟨s, hs⟩ := hc.stamps
  refine ⟨s, hs, ?_⟩
  have hi : r.toItem.stamps = some s := (stamps_plain rfl rfl rfl).trans hs
  exact hm.dominated_item hwf (List.mem_map_of_mem hr) hi

/-- A database has its own rows. -/
theorem rowIn_self (h : db.WellFormed) {r : ObjectRow} (hr : r ∈ db.rows) : RowIn r db := by
  obtain ⟨s, hs⟩ := (h.canonical r hr).stamps
  exact ⟨s, hs, r, hr, rfl, s, hs, le_rfl⟩

/-- What a database has, it has through its rows. -/
theorem RowIn.through {r : ObjectRow} (h : RowIn r db) (hall : ∀ r' ∈ db.rows, RowIn r' db') :
    RowIn r db' := by
  obtain ⟨s, hs, r', hr', he, t, ht, hle⟩ := h
  obtain ⟨t', ht', r'', hr'', he', u, hu, hle'⟩ := hall r' hr'
  obtain rfl := Option.some.inj (ht.symm.trans ht')
  exact ⟨s, hs, r'', hr'', he'.trans he, u, hu, hle.trans hle'⟩

/-! ## 2. Points -/

section Points

variable {ι : Type} {dbs dbs' : ι → ContainerDb} {a b c : ι} {p q : Int}

/-- Database `b` has every row of `a` with a ROWID up to `p`, and `a` hands out no such
    ROWID again. -/
structure Held (dbs : ι → ContainerDb) (a b : ι) (p : Int) : Prop where
  le_seq : p ≤ (dbs a).seq
  rowIn : ∀ r ∈ (dbs a).rows, (r.rowid : Int) ≤ p → RowIn r (dbs b)

/-- All databases are the same or later. -/
def AllLater (md5 : Str → BitVec 128) (dbs dbs' : ι → ContainerDb) : Prop :=
  ∀ i, Later md5 (dbs i) (dbs' i)

/-- **Held for now is held for good.** -/
theorem Held.mono (h : Held dbs a b p) (hl : AllLater md5 dbs dbs') : Held dbs' a b p := by
  refine ⟨h.le_seq.trans (Int.ofNat_le.mpr (hl a).seq), fun r hr hp => ?_⟩
  rcases (hl a).rows r hr with hr | hr
  · exact (hl b).rowIn r (h.rowIn r hr hp)
  · have := h.le_seq
    omega

theorem Held.neg (hwf : ∀ i, (dbs i).WellFormed) : Held dbs a b (-1) := by
  refine ⟨by omega, fun r hr hp => ?_⟩
  have := ((hwf a).bound r hr).1
  omega

theorem Held.max (h : Held dbs a b p) (h' : Held dbs a b q) : Held dbs a b (max p q) := by
  rcases max_choice p q with e | e
  · rwa [e]
  · rwa [e]

/-- A greater point holds a smaller one. -/
theorem Held.of_le (h : Held dbs a b q) (hpq : p ≤ q) : Held dbs a b p :=
  ⟨hpq.trans h.le_seq, fun r hr hp => h.rowIn r hr (hp.trans hpq)⟩

/-- `P` holds of every point the table has for a database. -/
def PointsOf (dbs : ι → ContainerDb) (P : ι → Int → Prop) (table : Dict Str Int) : Prop :=
  ∀ rec ∈ table, ∀ c, (dbs c).id = rec.1 → P c rec.2

variable {table : Dict Str Int}

theorem PointsOf.mono {P P' : ι → Int → Prop} (h : PointsOf dbs P table)
    (hl : AllLater md5 dbs dbs') (hP : ∀ c q, P c q → P' c q) : PointsOf dbs' P' table :=
  fun rec hrec c hc => hP c rec.2 (h rec hrec c ((hl c).id ▸ hc))

variable {P : ι → Int → Prop}

theorem PointsOf.get (h : PointsOf dbs P table) {c : ι}
    {q : Int} (hq : table.get (dbs c).id = some q) : P c q := h _ (Dict.mem_of_get hq) c rfl

theorem PointsOf.getSync (h : PointsOf dbs P table)
    (hneg : ∀ c, P c (-1)) (c : ι) : P c (getSync table (dbs c).id) := by
  unfold Swift.getSync
  cases hq : table.get (dbs c).id with
  | none => exact hneg c
  | some q => exact h.get hq

/-- Of two points the greater one is kept. -/
theorem PointsOf.mergeSync (h : PointsOf dbs P table)
    (hmax : ∀ c p q, P c p → P c q → P c (max p q)) {remoteId : Str} {point : Int}
    (hp : ∀ c, (dbs c).id = remoteId → P c point) :
    PointsOf dbs P (mergeSync table remoteId point) := by
  intro rec hrec c hc
  unfold Swift.mergeSync at hrec
  cases hold : table.get remoteId with
  | none =>
    rw [hold] at hrec
    rcases Dict.mem_set hrec with rfl | hrec
    · exact hp c hc
    · exact h rec hrec c hc
  | some old =>
    rw [hold] at hrec
    rcases Dict.mem_set hrec with rfl | hrec
    · exact hmax c _ _ (hp c hc) (h _ (Dict.mem_of_get hold) c hc)
    · exact h rec hrec c hc

/-- **`merge_syncs` keeps the points right.** -/
theorem PointsOf.mergeSyncs {table records : Dict Str Int}
    (h : PointsOf dbs P table) (hmax : ∀ c p q, P c p → P c q → P c (max p q))
    (hrec : ∀ rec ∈ records, ∀ c, (dbs c).id = rec.1 → P c rec.2) :
    PointsOf dbs P (mergeSyncs table records) := by
  induction records generalizing table with
  | nil => exact h
  | cons rec records ih =>
    exact ih (h.mergeSync hmax (hrec rec List.mem_cons_self)) fun rec' hrec' =>
      hrec rec' (List.mem_cons_of_mem _ hrec')

end Points

/-! ## 3. Hashes -/

/-- Tables of one hash have the same names and timestamps. -/
def CollisionFree (md5 : Str → BitVec 128) (tables : Set (List ObjectRow)) : Prop :=
  ∀ l ∈ tables, ∀ l' ∈ tables, tableHash md5 l = tableHash md5 l' →
    ∀ r ∈ l, ∃ r' ∈ l', r'.name = r.name ∧ r'.createdAt = r.createdAt

/-- A name with its timestamp is of one policy, in all tables. `chexor` leaves the
    policy out. -/
def OnePolicy (tables : Set (List ObjectRow)) : Prop :=
  ∀ l ∈ tables, ∀ l' ∈ tables, ∀ r ∈ l, ∀ r' ∈ l', r'.name = r.name → r'.createdAt = r.createdAt →
    r'.storagePolicyIndex = r.storagePolicyIndex

section Hashes

variable {ι : Type} {dbs dbs' : ι → ContainerDb} {a b c : ι} {tables : Set (List ObjectRow)}
  {info : SyncInfo} {rhash : BitVec 128}

/-- What a database sent of itself: its table at the time has the hash, and the rows
    up to the highest ROWID. -/
structure InfoSound (md5 : Str → BitVec 128) (tables : Set (List ObjectRow)) (db : ContainerDb)
    (info : SyncInfo) : Prop where
  le_seq : info.maxRow ≤ db.seq
  table : ∃ l ∈ tables, tableHash md5 l = info.hash ∧ ∀ r ∈ db.rows, (r.rowid : Int) ≤ info.maxRow → r ∈ l

/-- The remote database had a table of this hash, and has its rows. -/
def HashSound (md5 : Str → BitVec 128) (tables : Set (List ObjectRow)) (db : ContainerDb)
    (rhash : BitVec 128) : Prop :=
  ∃ l ∈ tables, tableHash md5 l = rhash ∧ ∀ r ∈ l, RowIn r db

theorem InfoSound.mono {db db' : ContainerDb} (h : InfoSound md5 tables db info)
    (hl : Later md5 db db') : InfoSound md5 tables db' info := by
  obtain ⟨l, hlt, hh, hrows⟩ := h.table
  refine ⟨h.le_seq.trans (Int.ofNat_le.mpr hl.seq), l, hlt, hh, fun r hr hp => ?_⟩
  rcases hl.rows r hr with hr | hr
  · exact hrows r hr hp
  · have := h.le_seq
    omega

theorem HashSound.mono {db db' : ContainerDb} (h : HashSound md5 tables db rhash)
    (hl : Later md5 db db') : HashSound md5 tables db' rhash := by
  obtain ⟨l, hlt, hh, hrows⟩ := h
  exact ⟨l, hlt, hh, fun r hr => hl.rowIn r (hrows r hr)⟩

/-- **Equal hashes hold everything that was sent.** -/
theorem held_of_hash (hfree : CollisionFree md5 tables) (hone : OnePolicy tables)
    (hi : InfoSound md5 tables (dbs a) info) (hr : HashSound md5 tables (dbs b) rhash)
    (he : info.hash = rhash) : Held dbs a b info.maxRow := by
  obtain ⟨l, hlt, hh, hrows⟩ := hi.table
  obtain ⟨l', hlt', hh', hrows'⟩ := hr
  refine ⟨hi.le_seq, fun r hr hp => ?_⟩
  obtain ⟨r', hr', hn, hc⟩ := hfree l hlt l' hlt' (hh.trans (he.trans hh'.symm)) r (hrows r hr hp)
  have hpol := hone l hlt l' hlt' r (hrows r hr hp) r' hr' hn hc
  obtain ⟨s, hs, hd⟩ := hrows' r' hr'
  have hi : r'.ident = r.ident := Prod.ext hn hpol
  exact ⟨s, hc ▸ hs, hi ▸ hd⟩

end Hashes

/-! ## 4. The invariant -/

section Invariant

variable {ι : Type} {dbs dbs' : ι → ContainerDb} {tables : Set (List ObjectRow)} {a b c : ι}

/-- What a pass has in its hands is right. -/
def StageSound (md5 : Str → BitVec 128) (tables : Set (List ObjectRow)) (dbs : ι → ContainerDb) :
    Stage ι → Prop
  | .hashRead _ _ => True
  | .infoRead a info => InfoSound md5 tables (dbs a) info
  | .remoteInfo a b info rhash =>
    InfoSound md5 tables (dbs a) info ∧ HashSound md5 tables (dbs b) rhash
  | .remotePoint a b info rhash point | .response a b info rhash point =>
    InfoSound md5 tables (dbs a) info ∧ HashSound md5 tables (dbs b) rhash ∧ Held dbs a b point
  | .compare a b info rhash point localSync =>
    InfoSound md5 tables (dbs a) info ∧ HashSound md5 tables (dbs b) rhash ∧ Held dbs a b point ∧
      Held dbs a b localSync
  | .inSync a b info => Held dbs a b info.maxRow
  | .usync a b point | .shipped a b point => Held dbs a b point
  | .diff a b syncTable point _ => Held dbs a b point ∧ PointsOf dbs (fun c q => Held dbs c a q) syncTable
  | .batch a b syncTable point _ objects =>
    Held dbs a b point ∧ PointsOf dbs (fun c q => Held dbs c a q) syncTable ∧
      (∀ r ∈ objects, Canonical r.createdAt) ∧
      -- the batch has no gap, or there is nothing left to send
      match objects.getLast? with
      | some last => (last.rowid : Int) ≤ (dbs a).seq ∧
          ∀ r ∈ (dbs a).rows, r.rowid ≤ last.rowid → r ∈ objects ∨ RowIn r (dbs b)
      | none => PointsOf dbs (fun c q => Held dbs c b q) syncTable

theorem StageSound.mono {g : Stage ι} (h : StageSound md5 tables dbs g)
    (hl : AllLater md5 dbs dbs') : StageSound md5 tables dbs' g := by
  have hpoints : ∀ {table : Dict Str Int} (b : ι), PointsOf dbs (fun c q => Held dbs c b q) table →
      PointsOf dbs' (fun c q => Held dbs' c b q) table := fun b h =>
    h.mono hl fun c q hq => hq.mono hl
  cases g with
  | hashRead a hash => trivial
  | infoRead a info => exact InfoSound.mono h (hl a)
  | remoteInfo a b info rhash => exact ⟨h.1.mono (hl a), h.2.mono (hl b)⟩
  | remotePoint a b info rhash point => exact ⟨h.1.mono (hl a), h.2.1.mono (hl b), h.2.2.mono hl⟩
  | response a b info rhash point => exact ⟨h.1.mono (hl a), h.2.1.mono (hl b), h.2.2.mono hl⟩
  | compare a b info rhash point localSync =>
    exact ⟨h.1.mono (hl a), h.2.1.mono (hl b), h.2.2.1.mono hl, h.2.2.2.mono hl⟩
  | inSync a b info => exact Held.mono h hl
  | usync a b point => exact Held.mono h hl
  | shipped a b point => exact Held.mono h hl
  | diff a b syncTable point diffs => exact ⟨h.1.mono hl, hpoints a h.2⟩
  | batch a b syncTable point diffs objects =>
    obtain ⟨h1, h2, h3, h4⟩ := h
    refine ⟨h1.mono hl, hpoints a h2, h3, ?_⟩
    cases hlast : objects.getLast? with
    | none =>
      rw [hlast] at h4
      exact hpoints b h4
    | some last =>
      rw [hlast] at h4
      refine ⟨h4.1.trans (Int.ofNat_le.mpr (hl a).seq), fun r hr hp => ?_⟩
      rcases (hl a).rows r hr with hr | hr
      · exact (h4.2 r hr hp).imp id ((hl b).rowIn r)
      · have := h4.1
        omega

/-- **Both sync tables of every database and every stage are right.** -/
structure PointsSound (md5 : Str → BitVec 128) (tables : Set (List ObjectRow)) (s : Cluster ι) : Prop where
  sane : ∀ i, Sane md5 (s.dbs i)
  ids : ∀ i j, (s.dbs i).id = (s.dbs j).id → i = j
  incoming : ∀ b, PointsOf s.dbs (fun c q => Held s.dbs c b q) (s.dbs b).incomingSync
  outgoing : ∀ a, PointsOf s.dbs (fun c q => Held s.dbs a c q) (s.dbs a).outgoingSync
  stages : ∀ g ∈ s.stages, StageSound md5 tables s.dbs g

variable {s s' : Cluster ι}

theorem PointsSound.wellFormed (h : PointsSound md5 tables s) (i : ι) : (s.dbs i).WellFormed := (h.sane i).wellFormed

theorem PointsSound.reach (h : PointsSound md5 tables s) {g : Stage ι} (hg : StageSound md5 tables s.dbs g) :
    PointsSound md5 tables (s.reach g) :=
  ⟨h.sane, h.ids, h.incoming, h.outgoing, fun g' hg' => by
    rcases List.mem_cons.mp hg' with rfl | hg'
    · exact hg
    · exact h.stages g' hg'⟩

variable [DecidableEq ι]

variable {db : ContainerDb}

theorem allLater_put (h : PointsSound md5 tables s) (hl : Later md5 (s.dbs a) db) :
    AllLater md5 s.dbs (s.put a db).dbs := by
  intro i
  show Later md5 (s.dbs i) (Function.update s.dbs a db i)
  by_cases hi : i = a
  · subst hi
    rwa [Function.update_self]
  · rw [Function.update_of_ne hi]
    exact Later.refl (h.sane i)

/-- **One database moves on**, with its sync tables right. -/
theorem PointsSound.put (h : PointsSound md5 tables s) (hl : Later md5 (s.dbs a) db)
    (hin : PointsOf (s.put a db).dbs (fun c q => Held (s.put a db).dbs c a q) db.incomingSync)
    (hout : PointsOf (s.put a db).dbs (fun c q => Held (s.put a db).dbs a c q) db.outgoingSync) :
    PointsSound md5 tables (s.put a db) := by
  have hall := allLater_put h hl
  have hself : (s.put a db).dbs a = db := Function.update_self ..
  have hother : ∀ i, i ≠ a → (s.put a db).dbs i = s.dbs i := fun i hi => Function.update_of_ne hi ..
  refine ⟨fun i => (hall i).sane, fun i j hij => h.ids i j ?_, fun b => ?_, fun b => ?_,
    fun g hg => (h.stages g hg).mono hall⟩
  · rw [← (hall i).id, ← (hall j).id, hij]
  · by_cases hb : b = a
    · subst hb
      rw [hself]
      exact hin
    · rw [hother b hb]
      exact (h.incoming b).mono hall fun c q hq => hq.mono hall
  · by_cases hb : b = a
    · subst hb
      rw [hself]
      exact hout
    · rw [hother b hb]
      exact (h.outgoing b).mono hall fun c q hq => hq.mono hall

/-- Writing an incoming sync table. -/
theorem PointsSound.putIncoming (h : PointsSound md5 tables s) (b : ι) {table : Dict Str Int}
    (ht : PointsOf s.dbs (fun c q => Held s.dbs c b q) table) :
    AllLater md5 s.dbs (s.put b { s.dbs b with incomingSync := table }).dbs ∧
      PointsSound md5 tables (s.put b { s.dbs b with incomingSync := table }) := by
  have hl : Later md5 (s.dbs b) { s.dbs b with incomingSync := table } :=
    Later.syncs (h.sane b) table (s.dbs b).outgoingSync
  have hall := allLater_put h hl
  exact ⟨hall, h.put hl (ht.mono hall fun c q hq => hq.mono hall)
    ((h.outgoing b).mono hall fun c q hq => hq.mono hall)⟩

/-- Writing one outgoing sync point. -/
theorem PointsSound.putOutgoing (h : PointsSound md5 tables s) (a b : ι) {point : Int}
    (hp : Held s.dbs a b point) :
    AllLater md5 s.dbs (s.put a { s.dbs a with
        outgoingSync := mergeSyncs (s.dbs a).outgoingSync [((s.dbs b).id, point)] }).dbs ∧
      PointsSound md5 tables (s.put a { s.dbs a with
        outgoingSync := mergeSyncs (s.dbs a).outgoingSync [((s.dbs b).id, point)] }) := by
  have hl := Later.syncs (h.sane a) (s.dbs a).incomingSync
    (mergeSyncs (s.dbs a).outgoingSync [((s.dbs b).id, point)])
  have hall := allLater_put h hl
  refine ⟨hall, h.put hl ((h.incoming a).mono hall fun c q hq => hq.mono hall) ?_⟩
  refine ((h.outgoing a).mergeSyncs (fun c p q hp hq => hp.max hq) fun rec hrec c hc => ?_).mono hall
    fun c q hq => hq.mono hall
  obtain rfl := List.mem_singleton.mp hrec
  exact h.ids c b hc ▸ hp

/-! ## 5. Steps and runs -/

/-- The table `get_max_row` sees has the hash that `get_info` saw, and a diff has room
    for a row. -/
def Consistent (s : Cluster ι) : Act ι → Prop
  | .next (.hashRead a hash) _ _ _ _ => (s.dbs a).hash = hash
  | .next (.diff _ _ _ _ _) _ perDiff _ _ => 0 < perDiff
  | _ => True

omit [DecidableEq ι] in
/-- **`get_replication_info` sends what is so**, when its reads are consistent. -/
theorem infoSound_of_hash (h : PointsSound md5 tables s) (htab : ∀ i, (s.dbs i).rows ∈ tables)
    {hash : BitVec 128} (he : (s.dbs a).hash = hash) :
    InfoSound md5 tables (s.dbs a) ⟨hash, (s.dbs a).maxRow⟩ := by
  refine ⟨?_, _, htab a, (h.sane a).audited.hash.symm.trans he, fun r hr _ => hr⟩
  show (s.dbs a).maxRow ≤ (s.dbs a).seq
  unfold ContainerDb.maxRow
  split <;> omega

omit [DecidableEq ι] in
/-- **The next diff has no gap**, or the remote database has all rows. -/
theorem batchSound (h : PointsSound md5 tables s) {syncTable : Dict Str Int} {point : Int}
    {diffs perDiff : Nat} (hg : StageSound md5 tables s.dbs (.diff a b syncTable point diffs))
    (hn : 0 < perDiff) : StageSound md5 tables s.dbs
      (.batch a b syncTable point diffs ((s.dbs a).getItemsSince point perDiff)) := by
  obtain ⟨hp, ht⟩ := hg
  refine ⟨hp, ht, fun r hr => (h.wellFormed a).canonical r (mem_getItemsSince hr).1, ?_⟩
  cases hlast : ((s.dbs a).getItemsSince point perDiff).getLast? with
  | none =>
    -- the sender has nothing behind the point: what it has, the remote database has
    have hall : ∀ r ∈ (s.dbs a).rows, RowIn r (s.dbs b) := fun r hr =>
      hp.rowIn r hr (getItemsSince_none hn hlast r hr)
    exact fun rec hrec c hc => ⟨(ht rec hrec c hc).le_seq, fun r hr hrp =>
      ((ht rec hrec c hc).rowIn r hr hrp).through hall⟩
  | some last =>
    obtain ⟨hmem, hgap⟩ := getItemsSince_last (h.wellFormed a) hlast
    refine ⟨?_, fun r hr hrp => ?_⟩
    · exact Int.ofNat_le.mpr ((h.wellFormed a).bound last (mem_getItemsSince hmem).1).2
    · by_cases hpr : point < r.rowid
      · exact Or.inl ((hgap r hr).mpr ⟨hpr, hrp⟩)
      · exact Or.inr (hp.rowIn r hr (not_lt.mp hpr))

/-- **Merging a diff moves the point to its last row.** -/
theorem mergeSound (h : PointsSound md5 tables s) {syncTable : Dict Str Int} {point : Int} {diffs : Nat}
    {objects : List ObjectRow} (hg : StageSound md5 tables s.dbs (.batch a b syncTable point diffs objects))
    {last : ObjectRow} (hlast : objects.getLast? = some last) {order : DictOrder}
    (hstep : mergeItems md5 order (s.dbs b) (objects.map ObjectRow.toItem) (some (s.dbs a).id) = some db) :
    PointsSound md5 tables ((s.put b db).reach (.diff a b syncTable last.rowid (diffs + 1))) := by
  obtain ⟨-, ht, hcan, hbatch⟩ := hg
  rw [hlast] at hbatch
  obtain ⟨adds, hm⟩ := merged_mergeItems (h.wellFormed b) hstep
  have hl := Later.merge (h.sane b) hstep hm
  have hall := allLater_put h hl
  have hself : (s.put b db).dbs b = db := Function.update_self ..
  have hheld : Held (s.put b db).dbs a b last.rowid := by
    refine ⟨hbatch.1.trans (Int.ofNat_le.mpr (hall a).seq), fun r hr hp => ?_⟩
    have hold : r ∈ (s.dbs a).rows := ((hall a).rows r hr).resolve_right fun hlt => by
      have := hbatch.1
      omega
    rcases hbatch.2 r hold (Int.ofNat_le.mp hp) with hin | hin
    · rw [hself]
      exact hm.rowIn (h.wellFormed b) hin (hcan r hin)
    · exact (hall b).rowIn r hin
  have hsound : PointsSound md5 tables (s.put b db) := by
    refine h.put hl ?_ ?_
    · have hold := (h.incoming b).mono hall fun c q hq => hq.mono hall
      rcases hm.incoming with he | ⟨src, x, p, hsrc, hx, hxp, he⟩
      · rwa [he]
      · rw [he]
        refine hold.mergeSync (fun c p q hp hq => hp.max hq) fun c hc => ?_
        obtain rfl := Option.some.inj hsrc
        have hca : c = a := h.ids c a ((hall c).id.symm.trans hc)
        rw [List.getLast?_map, hlast] at hx
        obtain rfl := Option.some.inj hx
        obtain rfl := Option.some.inj hxp
        exact hca ▸ hheld
    · rw [hm.outgoing]
      exact (h.outgoing b).mono hall fun c q hq => hq.mono hall
  exact hsound.reach ⟨hheld, ht.mono hall fun c q hq => hq.mono hall⟩

/-- **What a pass does next keeps the invariant.** -/
theorem PointsSound.next (hfree : CollisionFree md5 tables) (hone : OnePolicy tables)
    (h : PointsSound md5 tables s) (htab : ∀ i, (s.dbs i).rows ∈ tables) {g : Stage ι} (hg : g ∈ s.stages)
    {node : ι} {perDiff maxDiffs : Nat} {order : DictOrder}
    (hc : Consistent s (.next g node perDiff maxDiffs order))
    (hstep : g.next md5 s node perDiff maxDiffs order = some s') : PointsSound md5 tables s' := by
  have hsound := h.stages g hg
  cases g with
  | hashRead a hash =>
    obtain rfl := Option.some.inj hstep
    exact h.reach (infoSound_of_hash h htab hc)
  | infoRead a info =>
    obtain rfl := Option.some.inj hstep
    refine h.reach ⟨hsound, _, htab node, (h.sane node).audited.hash.symm, fun r hr => ?_⟩
    exact rowIn_self (h.wellFormed node) hr
  | remoteInfo a b info rhash =>
    obtain rfl := Option.some.inj hstep
    exact h.reach ⟨hsound.1, hsound.2, (h.incoming b).getSync (fun c => Held.neg h.wellFormed) a⟩
  | remotePoint a b info rhash point =>
    rw [Stage.next] at hstep
    split at hstep
    · next hmatch =>
      obtain rfl := Option.some.inj hstep
      have hheld := held_of_hash hfree hone hsound.1 hsound.2.1 hmatch.1
      have hrec : ∀ rec ∈ [((s.dbs a).id, info.maxRow)], ∀ c, (s.dbs c).id = rec.1 →
          Held s.dbs c b rec.2 := fun rec hrec c hc => by
        obtain rfl := List.mem_singleton.mp hrec
        exact h.ids c a hc ▸ hheld
      obtain ⟨hall, hput⟩ := h.putIncoming b
        ((h.incoming b).mergeSyncs (fun c p q hp hq => hp.max hq) hrec)
      exact hput.reach ⟨hsound.1.mono (hall a), hsound.2.1.mono (hall b), hheld.mono hall⟩
    · obtain rfl := Option.some.inj hstep
      exact h.reach hsound
  | response a b info rhash point =>
    obtain rfl := Option.some.inj hstep
    exact h.reach ⟨hsound.1, hsound.2.1, hsound.2.2,
      (h.outgoing a).getSync (fun c => Held.neg h.wellFormed) b⟩
  | compare a b info rhash point localSync =>
    obtain ⟨hi, hr, hp, hlocal⟩ := hsound
    rw [Stage.next] at hstep
    split at hstep
    · next hge =>
      obtain rfl := Option.some.inj hstep
      exact h.reach ((hp.max hlocal).of_le hge)
    · split at hstep
      · next hmatch =>
        obtain rfl := Option.some.inj hstep
        obtain ⟨hall, hput⟩ := h.putOutgoing a b hp
        exact hput.reach ((held_of_hash hfree hone hi hr hmatch.symm).mono hall)
      · obtain rfl := Option.some.inj hstep
        exact h.reach (hp.max hlocal)
  | inSync a b info => cases hstep
  | usync a b point =>
    obtain rfl := Option.some.inj hstep
    exact h.reach ⟨hsound, h.incoming a⟩
  | diff a b syncTable point diffs =>
    obtain rfl := Option.some.inj hstep
    exact h.reach (batchSound h hsound hc)
  | batch a b syncTable point diffs objects =>
    rw [Stage.next] at hstep
    cases hlast : objects.getLast? with
    | some last =>
      rw [hlast] at hstep
      dsimp only at hstep
      split at hstep
      · obtain ⟨db, hdb, rfl⟩ := Option.map_eq_some_iff.mp hstep
        exact mergeSound h hsound hlast hdb
      · cases hstep
    | none =>
      rw [hlast] at hstep
      obtain rfl := Option.some.inj hstep
      obtain ⟨hp, -, -, hship⟩ := hsound
      rw [hlast] at hship
      obtain ⟨hall, hput⟩ := h.putIncoming b
        ((h.incoming b).mergeSyncs (fun c p q hp hq => hp.max hq) hship)
      exact hput.reach (hp.mono hall)
  | shipped a b point =>
    obtain rfl := Option.some.inj hstep
    exact (h.putOutgoing a b hsound).2

/-- **One step keeps the invariant.** -/
theorem PointsSound.step (hfree : CollisionFree md5 tables) (hone : OnePolicy tables)
    (h : PointsSound md5 tables s) {act : Act ι} (htab : ∀ i, (s.dbs i).rows ∈ tables)
    (hc : Consistent s act) (hstep : s.step md5 act = some s') : PointsSound md5 tables s' := by
  cases act with
  | write a order items =>
    obtain ⟨db, hdb, rfl⟩ := Option.map_eq_some_iff.mp hstep
    obtain ⟨adds, hm⟩ := merged_mergeItems (h.wellFormed a) hdb
    have hl := Later.merge (h.sane a) hdb hm
    have hall := allLater_put h hl
    refine h.put hl ?_ ?_
    · have hsame := hm.incoming.resolve_right fun ⟨_, _, _, hsrc, _⟩ => nomatch hsrc
      rw [hsame]
      exact (h.incoming a).mono hall fun c q hq => hq.mono hall
    · rw [hm.outgoing]
      exact (h.outgoing a).mono hall fun c q hq => hq.mono hall
  | start a =>
    obtain rfl := Option.some.inj hstep
    exact h.reach trivial
  | next g node perDiff maxDiffs order =>
    rw [Cluster.step] at hstep
    split at hstep
    · next hg => exact h.next hfree hone htab hg hc hstep
    · cases hstep

/-- Databases of different ids before any replication: well-formed tables, and nothing
    in the sync tables. -/
structure Initial (md5 : Str → BitVec 128) (s : Cluster ι) : Prop where
  sane : ∀ i, Sane md5 (s.dbs i)
  ids : ∀ i j, (s.dbs i).id = (s.dbs j).id → i = j
  incoming : ∀ i, (s.dbs i).incomingSync = []
  outgoing : ∀ i, (s.dbs i).outgoingSync = []
  stages : s.stages = []

omit [DecidableEq ι] in
theorem Initial.pointsSound (h : Initial md5 s) : PointsSound md5 tables s := by
  refine ⟨h.sane, h.ids, fun b rec hrec => ?_, fun a rec hrec => ?_, fun g hg => ?_⟩
  · rw [h.incoming] at hrec
    cases hrec
  · rw [h.outgoing] at hrec
    cases hrec
  · rw [h.stages] at hg
    cases hg

/-- The hashes of the run do not collide: its tables are among `tables`. -/
def Within (tables : Set (List ObjectRow)) (s : Cluster ι) (_ : Act ι) : Prop :=
  ∀ i, (s.dbs i).rows ∈ tables

/-- Every row of `a` with a ROWID up to `p` is in `b`. -/
def Replicated (dbs : ι → ContainerDb) (a b : ι) (p : Int) : Prop :=
  ∀ r ∈ (dbs a).rows, (r.rowid : Int) ≤ p → RowIn r (dbs b)

/-- What sync points promise, and what being in sync means. -/
structure ReplicationSound (s : Cluster ι) : Prop where
  incoming : ∀ a b p, (s.dbs b).incomingSync.get (s.dbs a).id = some p → Replicated s.dbs a b p
  outgoing : ∀ a b p, (s.dbs a).outgoingSync.get (s.dbs b).id = some p → Replicated s.dbs a b p
  inSync : ∀ a b info, .inSync a b info ∈ s.stages → Replicated s.dbs a b info.maxRow

/-- **Replication by diffs is sound**, in every run whose steps are consistent. -/
theorem replication_sound (md5 : Str → BitVec 128) {tables : Set (List ObjectRow)}
    (hfree : CollisionFree md5 tables) (hone : OnePolicy tables) {s t : Cluster ι}
    (h0 : Initial md5 s)
    (hrun : Reach (Cluster.step md5) (fun s act => Within tables s act ∧ Consistent s act) s t) :
    ReplicationSound t := by
  have h : PointsSound md5 tables t := hrun.invariant h0.pointsSound fun u act u' hu hp hs =>
    hu.step hfree hone hp.1 hp.2 hs
  exact ⟨fun a b p hp => ((h.incoming b).get hp).rowIn, fun a b p hp => ((h.outgoing a).get hp).rowIn,
    fun a b info hi => Held.rowIn (h.stages _ hi)⟩

/-- A sync point says that `b` has all of `a`. -/
def Synced (s : Cluster ι) (a b : ι) : Prop :=
  ∃ p, ((s.dbs a).outgoingSync.get (s.dbs b).id = some p ∨ (s.dbs b).incomingSync.get (s.dbs a).id = some p) ∧
    ((s.dbs a).seq : Int) ≤ p

/-- **Databases in sync all around agree**: where sync points lead from one to the other and back,
    over any number of replicas, both have the same names with the same timestamps. -/
theorem synced_around_agree (md5 : Str → BitVec 128) {tables : Set (List ObjectRow)}
    (hfree : CollisionFree md5 tables) (hone : OnePolicy tables) {s t : Cluster ι} (h0 : Initial md5 s)
    (hrun : Reach (Cluster.step md5) (fun s act => Within tables s act ∧ Consistent s act) s t)
    (hab : Relation.ReflTransGen (Synced t) a b) (hba : Relation.ReflTransGen (Synced t) b a) :
    ∀ r ∈ (t.dbs a).rows, ∃ r' ∈ (t.dbs b).rows, r'.ident = r.ident ∧ r'.createdAt = r.createdAt := by
  have h : PointsSound md5 tables t := hrun.invariant h0.pointsSound fun u act u' hu hp hs =>
    hu.step hfree hone hp.1 hp.2 hs
  have hrows : ∀ {a b}, Relation.ReflTransGen (Synced t) a b → ∀ r ∈ (t.dbs a).rows, RowIn r (t.dbs b) := by
    intro a b hab
    induction hab with
    | refl => exact fun r hr => rowIn_self (h.wellFormed _) hr
    | @tail b c _ hbc ih =>
      obtain ⟨p, hp, hle⟩ := hbc
      have hheld : Held t.dbs b c p := hp.elim (h.outgoing b).get (h.incoming c).get
      exact fun r hr => (ih r hr).through fun r' hr' =>
        hheld.rowIn r' hr' ((Int.ofNat_le.mpr ((h.wellFormed b).bound r' hr').2).trans hle)
  intro r hr
  obtain ⟨s, hs, r', hr', he, u, hu, hsu⟩ := hrows hab r hr
  obtain ⟨u', hu', r'', hr'', he', v, hv, huv⟩ := hrows hba r' hr'
  -- coming back, it is the row it was
  obtain rfl := List.inj_on_of_nodup_map (h.wellFormed a).idents hr'' hr (he'.trans he)
  obtain rfl := Option.some.inj (hu.symm.trans hu')
  obtain rfl := Option.some.inj (hs.symm.trans hv)
  exact ⟨r', hr', he, ((h.wellFormed b).canonical r' hr').ext ((h.wellFormed a).canonical r'' hr)
    (by rw [hu, hs, le_antisymm hsu huv])⟩

end Invariant

/-! ## 6. A write between the two reads -/

instance decConsistent {ι : Type} (s : Cluster ι) : (act : Act ι) → Decidable (Consistent s act)
  | .write _ _ _ | .start _ => isTrue trivial
  | .next (.hashRead a hash) _ _ _ _ => inferInstanceAs (Decidable ((s.dbs a).hash = hash))
  | .next (.diff _ _ _ _ _) _ perDiff _ _ => inferInstanceAs (Decidable (0 < perDiff))
  | .next (.infoRead _ _) _ _ _ _ | .next (.remoteInfo _ _ _ _) _ _ _ _
  | .next (.remotePoint _ _ _ _ _) _ _ _ _ | .next (.response _ _ _ _ _) _ _ _ _
  | .next (.compare _ _ _ _ _ _) _ _ _ _ | .next (.inSync _ _ _) _ _ _ _
  | .next (.usync _ _ _) _ _ _ _ | .next (.batch _ _ _ _ _ _) _ _ _ _
  | .next (.shipped _ _ _) _ _ _ _ => isTrue trivial

/-- Two objects as rows of the sender, and their md5 sums. -/
def sentO : ObjectRow := ⟨⟨"o".toList, "0000000001.00000".toList, 5, [], "e1".toList, false, 0⟩, 1⟩

def sentQ : ObjectRow := ⟨⟨"q".toList, "0000000004.00000".toList, 9, [], "e4".toList, false, 0⟩, 2⟩

def hashO : BitVec 128 := 0x74930d4241dd50160de5da0a94a90443#128

def hashQ : BitVec 128 := 0x1e62082da638c373e2c2a89d2d6c13ca#128

def sentMd5 (s : Str) : BitVec 128 :=
  if s = "o-0000000001.00000".toList then hashO
  else if s = "q-0000000004.00000".toList then hashQ
  else 0

/-- The tables of the runs below. -/
def sentTables : List (List ObjectRow) := [[], [sentO], [sentO, sentQ]]

/-- Two new databases. -/
def twoDbs : Cluster Bool :=
  ⟨fun i => ContainerDb.fresh (if i then "b".toList else "a".toList) 0, []⟩

theorem initial_twoDbs : Initial sentMd5 twoDbs := by
  refine ⟨fun i => ⟨wellFormed_fresh _ _, audited_fresh _ _⟩, ?_, fun _ => rfl, fun _ => rfl, rfl⟩
  decide

theorem collisionFree_sentTables : CollisionFree sentMd5 {l | l ∈ sentTables} := by
  have h : ∀ l ∈ sentTables, ∀ l' ∈ sentTables, tableHash sentMd5 l = tableHash sentMd5 l' → l = l' := by
    decide
  exact fun l hl l' hl' he r hr => ⟨r, h l hl l' hl' he ▸ hr, rfl, rfl⟩

theorem onePolicy_sentTables : OnePolicy {l | l ∈ sentTables} := by
  have h : ∀ l ∈ sentTables, ∀ r ∈ l, r.storagePolicyIndex = 0 := by decide
  exact fun l hl l' hl' r hr r' hr' _ _ => (h l' hl' r' hr').trans (h l hl r hr).symm

/-- Object o is in both databases; q is put to the sender between its two reads. -/
def racedActs : List (Act Bool) :=
  [.write false DictOrder.insertion [sentO.toItem], .write true DictOrder.insertion [sentO.toItem],
    .start false, .write false DictOrder.insertion [sentQ.toItem],
    .next (.hashRead false hashO) true 1000 100 DictOrder.insertion,
    .next (.infoRead false ⟨hashO, 2⟩) true 1000 100 DictOrder.insertion,
    .next (.remoteInfo false true ⟨hashO, 2⟩ hashO) true 1000 100 DictOrder.insertion,
    .next (.remotePoint false true ⟨hashO, 2⟩ hashO (-1)) true 1000 100 DictOrder.insertion]

/-- **A sync point that covers a row nobody sent**: no hash collides, and yet the
    remote database has point 2 and no q. -/
theorem sync_point_covers_unsent_row :
    Initial sentMd5 twoDbs ∧ CollisionFree sentMd5 {l | l ∈ sentTables} ∧
    OnePolicy {l | l ∈ sentTables} ∧
    ∃ t, Reach (Cluster.step sentMd5) (Within {l | l ∈ sentTables}) twoDbs t ∧
      ¬ ReplicationSound t := by
  have hrun : (replay (Cluster.step sentMd5) (fun s _ => ∀ i, (s.dbs i).rows ∈ sentTables) twoDbs
      racedActs).map (fun t => decide ((t.dbs true).incomingSync.get (t.dbs false).id = some 2 ∧
        sentQ ∈ (t.dbs false).rows ∧ ∀ r ∈ (t.dbs true).rows, r.ident ≠ sentQ.ident)) = some true := by
    decide +kernel
  obtain ⟨t, ht, hlost⟩ := Option.map_eq_some_iff.mp hrun
  obtain ⟨hpoint, hq, hnone⟩ := of_decide_eq_true hlost
  refine ⟨initial_twoDbs, collisionFree_sentTables, onePolicy_sentTables, t,
    (Reach.of_replay ht).mono fun _ _ h => h, fun h => ?_⟩
  obtain ⟨s, -, r, hr, he, -⟩ := h.incoming false true 2 hpoint sentQ hq (by decide)
  exact hnone r hr he

/-- Both objects are put to the sender, and a pass sends them. -/
def sentActs : List (Act Bool) :=
  [.write false DictOrder.insertion [sentO.toItem], .write false DictOrder.insertion [sentQ.toItem],
    .start false, .next (.hashRead false (hashO ^^^ hashQ)) true 1000 100 DictOrder.insertion,
    .next (.infoRead false ⟨hashO ^^^ hashQ, 2⟩) true 1000 100 DictOrder.insertion,
    .next (.remoteInfo false true ⟨hashO ^^^ hashQ, 2⟩ 0) true 1000 100 DictOrder.insertion,
    .next (.remotePoint false true ⟨hashO ^^^ hashQ, 2⟩ 0 (-1)) true 1000 100 DictOrder.insertion,
    .next (.response false true ⟨hashO ^^^ hashQ, 2⟩ 0 (-1)) true 1000 100 DictOrder.insertion,
    .next (.compare false true ⟨hashO ^^^ hashQ, 2⟩ 0 (-1) (-1)) true 1000 100 DictOrder.insertion,
    .next (.usync false true (-1)) true 1000 100 DictOrder.insertion,
    .next (.diff false true [] (-1) 0) true 1000 100 DictOrder.insertion,
    .next (.batch false true [] (-1) 0 [sentO, sentQ]) true 1000 100 DictOrder.insertion,
    .next (.diff false true [] 2 1) true 1000 100 DictOrder.insertion,
    .next (.batch false true [] 2 1 []) true 1000 100 DictOrder.insertion,
    .next (.shipped false true 2) true 1000 100 DictOrder.insertion]

theorem replication_sound_pass : ∃ t : Cluster Bool,
    (t.dbs true).incomingSync.get (t.dbs false).id = some 2 ∧
    (t.dbs false).outgoingSync.get (t.dbs true).id = some 2 ∧
    (t.dbs false).rows = [sentO, sentQ] ∧ ReplicationSound t := by
  have hrun : (replay (Cluster.step sentMd5) (fun s act => (∀ i, (s.dbs i).rows ∈ sentTables) ∧
      Consistent s act) twoDbs sentActs).map (fun t =>
        decide ((t.dbs true).incomingSync.get (t.dbs false).id = some 2 ∧
          (t.dbs false).outgoingSync.get (t.dbs true).id = some 2 ∧
          (t.dbs false).rows = [sentO, sentQ])) = some true := by decide +kernel
  obtain ⟨t, ht, h⟩ := Option.map_eq_some_iff.mp hrun
  obtain ⟨hin, hout, hrows⟩ := of_decide_eq_true h
  exact ⟨t, hin, hout, hrows, replication_sound sentMd5 collisionFree_sentTables onePolicy_sentTables
    initial_twoDbs ((Reach.of_replay ht).mono fun _ _ h => h)⟩

/-- Object o is put to both databases, and a pass each way finds the hashes equal. -/
def syncedActs : {acts : List (Act Bool) // (replay (Cluster.step sentMd5) (fun s act =>
    (∀ i, (s.dbs i).rows ∈ sentTables) ∧ Consistent s act) twoDbs acts).map (fun t => decide ((t.dbs false).rows = [sentO] ∧
      ∀ i, (t.dbs i).incomingSync.get (t.dbs !i).id = some 1 ∧ (t.dbs !i).seq = 1)) = some true} :=
  ⟨.write false DictOrder.insertion [sentO.toItem] :: .write true DictOrder.insertion [sentO.toItem] ::
    [false, true].flatMap fun a => .start a :: [Stage.hashRead a hashO, .infoRead a ⟨hashO, 1⟩,
      .remoteInfo a (!a) ⟨hashO, 1⟩ hashO, .remotePoint a (!a) ⟨hashO, 1⟩ hashO (-1)].map
        fun g => .next g (!a) 1000 100 DictOrder.insertion, by decide +kernel⟩

theorem synced_around_agree_both : ∃ t : Cluster Bool, (t.dbs false).rows = [sentO] ∧
    ∀ r ∈ (t.dbs false).rows, ∃ r' ∈ (t.dbs true).rows, r'.ident = r.ident ∧ r'.createdAt = r.createdAt := by
  obtain ⟨t, ht, h⟩ := Option.map_eq_some_iff.mp syncedActs.2
  obtain ⟨hrows, h⟩ := of_decide_eq_true h
  have hsynced : ∀ i, Relation.ReflTransGen (Synced t) (!i) i := fun i =>
    .single ⟨1, Or.inr (h i).1, by rw [(h i).2]; rfl⟩
  exact ⟨t, hrows, synced_around_agree sentMd5 collisionFree_sentTables onePolicy_sentTables initial_twoDbs
    ((Reach.of_replay ht).mono fun _ _ h => h) (hsynced true) (hsynced false)⟩

end Mitaka.Swift
