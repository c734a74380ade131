/-
  Subject: nova/virt/hardware.py, `numa_fit_instance_to_host`: the search, and calls that
           are made one after another with the cells of one request.

  Fitting writes the page size that was chosen into the cell that asked for it, also when the
  attempt comes to nothing. `Drift` says what a cell may have become: what it needs is as
  before, and a page size of it is one that its request was answered with. Where asking for
  such a size is the same as asking what was asked first (`Steady`), a search finds what it
  finds with the cells as they were.
-/
import Mitaka.Nova.Numa

namespace Mitaka.Nova

open List

/-! ## 1. Calls with one request -/

/-- The loop over the permutations, without PCI requests: the cells afterwards, and whether they fit. -/
def searchPermutations (order : SetOrder) (limits : Option Limits) : List (List NumaCell) → InstanceTopology → InstanceTopology × Bool
  | [], cells => (cells, false)
  | perm :: perms, cells =>
    match fitCells order limits perm cells with
    | (cells, true) => (cells, true)
    | (cells, false) => searchPermutations order limits perms cells

/-- A call of `numa_fit_instance_to_host`, apart from the request. -/
structure FitCall where
  order : SetOrder
  host : List NumaCell
  limits : Option Limits

/-- The call: the cells of the request afterwards, and whether they fit. -/
def FitCall.run (call : FitCall) (t : InstanceTopology) : InstanceTopology × Bool :=
  if call.host = [] ∨ t = [] then (t, false)
  else if call.host.length < t.length then (t, false)
  else searchPermutations call.order call.limits (permutations t.length call.host) t

/-- What the call returns. -/
def FitCall.fit (call : FitCall) (t : InstanceTopology) : Option InstanceTopology :=
  numaFitInstanceToHost call.order call.host t call.limits fun _ => true

/-- The cells of a request behind some calls with it. -/
def requestAfter (calls : List FitCall) (t : InstanceTopology) : InstanceTopology := calls.foldl (fun t call => (call.run t).1) t

theorem fitPermutations_eq (order : SetOrder) (limits : Option Limits) (perms : List (List NumaCell)) (cells : InstanceTopology) :
    fitPermutations order limits (fun _ => true) perms cells =
      if (searchPermutations order limits perms cells).2 then some (searchPermutations order limits perms cells).1 else none := by
  induction perms generalizing cells with
  | nil => rfl
  | cons perm perms ih =>
    rw [fitPermutations, searchPermutations]
    obtain ⟨cells', fits⟩ := fitCells order limits perm cells
    cases fits with
    | true => rfl
    | false => exact ih cells'

/-- **What is returned** are the cells of the request as they are then. -/
theorem FitCall.fit_eq (call : FitCall) (t : InstanceTopology) :
    call.fit t = if (call.run t).2 then some (call.run t).1 else none := by
  rw [fit, run, numaFitInstanceToHost]
  split
  · rfl
  · split
    · rfl
    · exact fitPermutations_eq _ _ _ _

/-! ## 2. What fitting leaves of a cell -/

/-- Cells that need the same of a host cell, apart from the page size. -/
structure SameNeeds (c c' : InstanceCell) : Prop extends SameRequest c c' where
  memory : c'.memory = c.memory

theorem SameNeeds.refl (c : InstanceCell) : SameNeeds c c := ⟨⟨rfl, rfl, rfl⟩, rfl⟩

theorem SameNeeds.trans {a b c : InstanceCell} (h : SameNeeds a b) (h' : SameNeeds b c) : SameNeeds a c :=
  ⟨h.toSameRequest.trans h'.toSameRequest, h'.memory.trans h.memory⟩

section Needs

variable {order : SetOrder} {available : List CpuSet} {c c' : InstanceCell}

theorem pinVcpus_keeps (c : InstanceCell) (pairs : List (ℕ × ℕ)) :
    SameNeeds c (c.pinVcpus pairs) ∧ (c.pinVcpus pairs).pagesize = c.pagesize := by
  induction pairs generalizing c with
  | nil => exact ⟨.refl c, rfl⟩
  | cons p pairs ih =>
    have hpin : SameNeeds c (c.pin p) ∧ (c.pin p).pagesize = c.pagesize := by
      rw [InstanceCell.pin]
      split
      · exact ⟨⟨⟨rfl, rfl, rfl⟩, rfl⟩, rfl⟩
      · exact ⟨.refl c, rfl⟩
    obtain ⟨hsame, hpagesize⟩ := ih (c.pin p)
    exact ⟨hpin.1.trans hsame, hpagesize.trans hpin.2⟩

theorem packLoop_congr (h : SameNeeds c c') (keys : List ℕ) (last : ℕ × List (ℕ × ℕ)) :
    packLoop order available c' keys last = packLoop order available c keys last := by
  induction keys generalizing last with
  | nil => rfl
  | cons n keys ih =>
    rw [packLoop, packLoop, h.cpuset, h.cpuThreadPolicy]
    simp only [ih]

/-- **Packing** asks for nothing but the CPUs and the policy. -/
theorem packInstanceOntoCores_congr (h : SameNeeds c c') (id : ℤ) (n : ℕ) :
    (packInstanceOntoCores order available c' id n).isSome = (packInstanceOntoCores order available c id n).isSome := by
  have hthreads : ∀ m, threads c' m = threads c m := fun m => by rw [threads, threads, orphans, orphans, h.cpuset]
  rw [packInstanceOntoCores, packInstanceOntoCores, h.cpuThreadPolicy, h.cpuset, packLoop_congr h]
  simp only [hthreads, apply_ite Option.isSome, Option.isSome_some, Option.isSome_none]

theorem packInstanceOntoCores_keeps {id : ℤ} {n : ℕ} (h : packInstanceOntoCores order available c id n = some c') :
    SameNeeds c c' ∧ c'.pagesize = c.pagesize := by
  unfold packInstanceOntoCores at h
  dsimp only at h
  rw [Option.ite_none_left_eq_some] at h
  obtain rfl := Option.some.inj h.2
  obtain ⟨hsame, hpagesize⟩ := pinVcpus_keeps c _
  exact ⟨⟨⟨hsame.cpuset, hsame.cpuPolicy, hsame.cpuThreadPolicy⟩, hsame.memory⟩, hpagesize⟩

theorem fitCpus_congr (order : SetOrder) (h : SameNeeds c c') (limits : Option Limits) (cell : NumaCell) :
    (fitCpus order limits cell c').isSome = (fitCpus order limits cell c).isSome := by
  have hpinning : (fitInstanceCellWithPinning order cell c').isSome = (fitInstanceCellWithPinning order cell c).isSome := by
    unfold fitInstanceCellWithPinning
    rw [h.cpuset, h.memory]
    split
    · rfl
    · split
      · exact packInstanceOntoCores_congr h _ _
      · exact packInstanceOntoCores_congr h _ _
  have hrequested : c'.cpuPinningRequested = c.cpuPinningRequested := by
    rw [InstanceCell.cpuPinningRequested, InstanceCell.cpuPinningRequested, h.cpuPolicy]
  unfold fitCpus
  rw [h.cpuset, h.memory, hrequested]
  split
  · rfl
  · split
    · exact hpinning
    · cases limits with
      | none => rfl
      | some limits =>
        dsimp only
        split <;> rfl

theorem fitCpus_keeps {limits : Option Limits} {cell : NumaCell} (h : fitCpus order limits cell c = some c') :
    SameNeeds c c' ∧ c'.pagesize = c.pagesize := by
  unfold fitCpus at h
  split at h
  · cases h
  · split at h
    · unfold fitInstanceCellWithPinning at h
      split at h
      · cases h
      · split at h
        · exact packInstanceOntoCores_keeps h
        · exact packInstanceOntoCores_keeps h
    · cases limits with
      | none =>
        obtain rfl := Option.some.inj h
        exact ⟨.refl c, rfl⟩
      | some limits =>
        dsimp only at h
        split at h
        · cases h
        · obtain rfl := Option.some.inj h
          exact ⟨.refl c, rfl⟩

theorem supportsPagesizeRequest_congr (h : SameNeeds c c') (cell : NumaCell) (pagesize : ℤ) :
    supportsPagesizeRequest cell c' pagesize = supportsPagesizeRequest cell c pagesize := by
  unfold supportsPagesizeRequest
  rw [h.memory]

/-- What a page size request is answered with: nothing to choose, a size, or none that fits. -/
def answer (cell : NumaCell) (c : InstanceCell) : Option (Option ℤ) :=
  match c.pagesize.filter (· ≠ 0) with
  | none => some none
  | some pagesize => ((supportsPagesizeRequest cell c pagesize).filter (· ≠ 0)).map some

/-- **Fitting a cell**: its CPUs fit, and its page size request has an answer, which is written down. -/
theorem fitInstanceCell_cases (order : SetOrder) (limits : Option Limits) (cell : NumaCell) (c : InstanceCell) :
    SameNeeds c (fitInstanceCell order limits cell c).1 ∧
      (((fitCpus order limits cell c).isSome = true ∧ answer cell c = some (fitInstanceCell order limits cell c).1.pagesize ∧
          (fitInstanceCell order limits cell c).2 = true) ∨
        (((fitCpus order limits cell c).isSome = true → answer cell c = none) ∧
          (fitInstanceCell order limits cell c).1.pagesize = c.pagesize ∧ (fitInstanceCell order limits cell c).2 = false)) := by
  unfold fitInstanceCell
  cases hcpus : fitCpus order limits cell c with
  | none => exact ⟨.refl c, Or.inr ⟨nofun, rfl, rfl⟩⟩
  | some c' =>
    obtain ⟨hsame, hpagesize⟩ := fitCpus_keeps hcpus
    dsimp only
    rw [answer, hpagesize]
    cases hrequest : c.pagesize.filter (· ≠ 0) with
    | none => exact ⟨⟨⟨hsame.cpuset, hsame.cpuPolicy, hsame.cpuThreadPolicy⟩, hsame.memory⟩, Or.inl ⟨rfl, rfl, rfl⟩⟩
    | some pagesize =>
      dsimp only
      rw [supportsPagesizeRequest_congr hsame]
      cases hanswer : (supportsPagesizeRequest cell c pagesize).filter (· ≠ 0) with
      | none => exact ⟨hsame, Or.inr ⟨fun _ => rfl, hpagesize, rfl⟩⟩
      | some chosen =>
        exact ⟨⟨⟨hsame.cpuset, hsame.cpuPolicy, hsame.cpuThreadPolicy⟩, hsame.memory⟩, Or.inl ⟨rfl, rfl, rfl⟩⟩

end Needs

/-! ## 3. Cells that have been through attempts -/

/-- The CPUs of a cell fit on a host cell of a call. -/
def FitCall.Suits (call : FitCall) (h : NumaCell) (c : InstanceCell) : Prop := (fitCpus call.order call.limits h c).isSome = true

/-- The cell fits on its own. -/
def FitCall.Fits (call : FitCall) (h : NumaCell) (c : InstanceCell) : Prop := (fitInstanceCell call.order call.limits h c).2 = true

/-- To ask for what a request was answered with is to ask what was asked first. -/
def Steady (calls : List FitCall) (c : InstanceCell) : Prop :=
  ∀ a ∈ calls, ∀ h ∈ a.host, ∀ b ∈ calls, ∀ g ∈ b.host, a.Suits h c → b.Suits g c →
    ∀ p, answer h c = some p → answer g { c with pagesize := p } = answer g c

/-- What a cell may have become in some calls. -/
structure Drift (calls : List FitCall) (c c' : InstanceCell) : Prop where
  same : SameNeeds c c'
  pagesize : c'.pagesize = c.pagesize ∨ ∃ a ∈ calls, ∃ h ∈ a.host, a.Suits h c ∧ answer h c = some c'.pagesize

theorem Drift.refl (calls : List FitCall) (c : InstanceCell) : Drift calls c c := ⟨.refl c, Or.inl rfl⟩

section Drift

variable {calls : List FitCall} {call : FitCall} {h : NumaCell} {c c' : InstanceCell} {t t' t'' : InstanceTopology}

theorem answer_congr (hs : SameNeeds c c') : answer h c' = answer h { c with pagesize := c'.pagesize } := by
  have hmemory : ∀ pagesize, supportsPagesizeRequest h c' pagesize = supportsPagesizeRequest h { c with pagesize := c'.pagesize } pagesize :=
    fun pagesize => (supportsPagesizeRequest_congr (c := { c with pagesize := c'.pagesize }) ⟨⟨hs.cpuset, hs.cpuPolicy, hs.cpuThreadPolicy⟩, hs.memory⟩ h pagesize)
  unfold answer
  dsimp only
  simp only [hmemory]

/-- **A cell that has drifted** gets the answer that it got first. -/
theorem Drift.answer (hd : Drift calls c c') (hsteady : Steady calls c) (hcall : call ∈ calls) (hh : h ∈ call.host)
    (hsuits : call.Suits h c) : answer h c' = answer h c := by
  rw [answer_congr hd.same]
  rcases hd.pagesize with hp | ⟨a, ha, g, hg, hsuits', hanswer⟩
  · rw [hp]
  · exact hsteady a ha g hg call hcall h hh hsuits' hsuits _ hanswer

/-- **One cell**: it fits where it fitted first, with the same page size, and drifts no further. -/
theorem Drift.fitInstanceCell (hd : Drift calls c c') (hsteady : Steady calls c) (hcall : call ∈ calls) (hh : h ∈ call.host) :
    Drift calls c (fitInstanceCell call.order call.limits h c').1 ∧
      ((fitInstanceCell call.order call.limits h c').2 = true ↔ call.Fits h c) ∧
      (call.Fits h c → (fitInstanceCell call.order call.limits h c').1.pagesize = (fitInstanceCell call.order call.limits h c).1.pagesize) := by
  obtain ⟨hsame, hcases⟩ := fitInstanceCell_cases call.order call.limits h c'
  obtain ⟨-, hcases'⟩ := fitInstanceCell_cases call.order call.limits h c
  have hcpus := fitCpus_congr call.order hd.same call.limits h
  rw [hcpus] at hcases
  have hneeds := hd.same.trans hsame
  rw [FitCall.Fits]
  by_cases hsuits : call.Suits h c
  · have hanswer := hd.answer hsteady hcall hh hsuits
    rw [hanswer] at hcases
    rcases hcases with ⟨-, ha, hfits⟩ | ⟨hnone, hp, hfits⟩
    · rcases hcases' with ⟨-, ha', hfits'⟩ | ⟨hnone', -, -⟩
      · exact ⟨⟨hneeds, Or.inr ⟨call, hcall, h, hh, hsuits, ha⟩⟩, by rw [hfits, hfits'], fun _ => Option.some.inj (ha.symm.trans ha')⟩
      · rw [hnone' hsuits] at ha
        cases ha
    · rcases hcases' with ⟨-, ha', -⟩ | ⟨-, -, hfits'⟩
      · rw [hnone hsuits] at ha'
        cases ha'
      · refine ⟨⟨hneeds, ?_⟩, by rw [hfits, hfits'], fun he => absurd (hfits'.symm.trans he) Bool.false_ne_true⟩
        rw [hp]
        exact hd.pagesize
  · rcases hcases with ⟨hs, -⟩ | ⟨-, hp, hfits⟩
    · exact absurd hs hsuits
    · rcases hcases' with ⟨hs, -⟩ | ⟨-, -, hfits'⟩
      · exact absurd hs hsuits
      · refine ⟨⟨hneeds, ?_⟩, by rw [hfits, hfits'], fun he => absurd (hfits'.symm.trans he) Bool.false_ne_true⟩
        rw [hp]
        exact hd.pagesize

/-- The page sizes of cells that are fitted on their own. -/
def FitCall.pagesizes (call : FitCall) (hs : List NumaCell) (t : InstanceTopology) : List (Option ℤ) :=
  zipWith (fun h c => (fitInstanceCell call.order call.limits h c).1.pagesize) hs t

/-- **One permutation**: its cells fit where each of them fitted first on its own. -/
theorem drift_fitCells (hd : Forall₂ (Drift calls) t t') (hsteady : ∀ c ∈ t, Steady calls c) (hcall : call ∈ calls)
    {hs : List NumaCell} (hhs : ∀ h ∈ hs, h ∈ call.host) (hlen : hs.length = t.length) :
    Forall₂ (Drift calls) t (fitCells call.order call.limits hs t').1 ∧
      ((fitCells call.order call.limits hs t').2 = true ↔ Forall₂ call.Fits hs t) ∧
      (Forall₂ call.Fits hs t → (fitCells call.order call.limits hs t').1.map InstanceCell.pagesize = call.pagesizes hs t) := by
  induction hd generalizing hs with
  | nil =>
    obtain rfl := eq_nil_of_length_eq_zero hlen
    exact ⟨.nil, ⟨fun _ => .nil, fun _ => rfl⟩, fun _ => rfl⟩
  | cons hc hrest ih =>
    cases hs with
    | nil => cases hlen
    | cons h hs =>
      obtain ⟨hdrift, hfits, hpagesize⟩ := hc.fitInstanceCell (hsteady _ mem_cons_self) hcall (hhs h mem_cons_self)
      obtain ⟨hdrift', hfits', hpagesizes⟩ := ih (fun c hc => hsteady c (mem_cons_of_mem _ hc))
        (fun g hg => hhs g (mem_cons_of_mem _ hg)) (Nat.succ.inj hlen)
      rw [fitCells]
      rename_i c c' t t'
      generalize Nova.fitInstanceCell call.order call.limits h c' = x at hdrift hfits hpagesize
      obtain ⟨d, fits⟩ := x
      cases fits with
      | false =>
        have hno : ¬ call.Fits h c := fun hf => Bool.false_ne_true (hfits.mpr hf)
        exact ⟨.cons hdrift hrest, ⟨by simp, fun hall => absurd (forall₂_cons.mp hall).1 hno⟩,
          fun hall => absurd (forall₂_cons.mp hall).1 hno⟩
      | true =>
        have hyes : call.Fits h c := hfits.mp rfl
        dsimp only
        generalize fitCells call.order call.limits hs t' = y at hdrift' hfits' hpagesizes
        obtain ⟨ds, fits⟩ := y
        refine ⟨.cons hdrift hdrift', hfits'.trans (forall₂_cons.trans (and_iff_right hyes)).symm, fun hall => ?_⟩
        rw [map_cons, FitCall.pagesizes, zipWith_cons_cons]
        exact congrArg₂ List.cons (hpagesize hyes) (hpagesizes (forall₂_cons.mp hall).2)

/-- **The search**: it finds a permutation that fits exactly where one fitted first, and from cells that
    have drifted apart the same page sizes. -/
theorem drift_search (hd : Forall₂ (Drift calls) t t') (hd' : Forall₂ (Drift calls) t t'') (hsteady : ∀ c ∈ t, Steady calls c)
    (hcall : call ∈ calls) {perms : List (List NumaCell)} (hperms : ∀ p ∈ perms, p.length = t.length ∧ p.Subperm call.host) :
    Forall₂ (Drift calls) t (searchPermutations call.order call.limits perms t').1 ∧
      ((searchPermutations call.order call.limits perms t').2 = true ↔ ∃ p ∈ perms, Forall₂ call.Fits p t) ∧
      ((∃ p ∈ perms, Forall₂ call.Fits p t) → (searchPermutations call.order call.limits perms t').1.map InstanceCell.pagesize =
        (searchPermutations call.order call.limits perms t'').1.map InstanceCell.pagesize) := by
  induction perms generalizing t' t'' with
  | nil => exact ⟨hd, ⟨nofun, nofun⟩, nofun⟩
  | cons p perms ih =>
    obtain ⟨hlen, hsub⟩ := hperms p mem_cons_self
    have hhost : ∀ h ∈ p, h ∈ call.host := fun h hh => hsub.subset hh
    obtain ⟨hdrift, hfits, hpagesizes⟩ := drift_fitCells hd hsteady hcall hhost hlen
    obtain ⟨hdrift', hfits', hpagesizes'⟩ := drift_fitCells hd' hsteady hcall hhost hlen
    rw [searchPermutations, searchPermutations]
    generalize fitCells call.order call.limits p t' = x at hdrift hfits hpagesizes
    generalize fitCells call.order call.limits p t'' = y at hdrift' hfits' hpagesizes'
    obtain ⟨ds, fits⟩ := x
    obtain ⟨ds', fits'⟩ := y
    by_cases hp : Forall₂ call.Fits p t
    · obtain rfl : fits = true := hfits.mpr hp
      obtain rfl : fits' = true := hfits'.mpr hp
      exact ⟨hdrift, iff_of_true rfl ⟨p, mem_cons_self, hp⟩, fun _ => (hpagesizes hp).trans (hpagesizes' hp).symm⟩
    · obtain rfl : fits = false := Bool.eq_false_iff.mpr fun he => hp (hfits.mp he)
      obtain rfl : fits' = false := Bool.eq_false_iff.mpr fun he => hp (hfits'.mp he)
      obtain ⟨hdrift'', hfits'', hpagesizes''⟩ := ih hdrift hdrift' fun q hq => hperms q (mem_cons_of_mem _ hq)
      have hrest : (∃ q ∈ p :: perms, Forall₂ call.Fits q t) ↔ ∃ q ∈ perms, Forall₂ call.Fits q t := by
        rw [exists_mem_cons_iff, or_iff_right hp]
      exact ⟨hdrift'', hfits''.trans hrest.symm, fun hq => hpagesizes'' (hrest.mp hq)⟩

end Drift

/-! ## 4. Runs of calls -/

/-- Every choice of some elements, in every order, is among the permutations. -/
theorem mem_permutations_of_subperm {α : Type} [DecidableEq α] {l p : List α} (h : p.Subperm l) : p ∈ permutations p.length l := by
  induction p generalizing l with
  | nil => exact mem_singleton_self _
  | cons x p ih =>
    have hx : x ∈ l := h.subset mem_cons_self
    have hrest : p.Subperm (l.erase x) := by
      have herase := h.erase x
      rwa [erase_cons_head] at herase
    refine mem_flatMap.mpr ⟨l.idxOf x, mem_range.mpr (idxOf_lt_length_iff.mpr hx), mem_flatMap.mpr ⟨x, ?_, ?_⟩⟩
    · rw [getElem?_idxOf hx]
      exact mem_singleton_self x
    · rw [eraseIdx_idxOf_eq_erase]
      exact List.mem_map.mpr ⟨p, ih hrest, rfl⟩

section Runs

variable {calls history : List FitCall} {call : FitCall} {t t' t'' : InstanceTopology}

/-- The cells of the instance have host cells of their own that each of them fits on. -/
def Assignable (call : FitCall) (t : InstanceTopology) : Prop := ∃ cells : List NumaCell, cells.Subperm call.host ∧ Forall₂ call.Fits cells t

/-- **One call** with cells that have drifted. -/
theorem drift_run (hd : Forall₂ (Drift calls) t t') (hd' : Forall₂ (Drift calls) t t'') (hsteady : ∀ c ∈ t, Steady calls c)
    (hcall : call ∈ calls) (hne : t ≠ []) :
    Forall₂ (Drift calls) t (call.run t').1 ∧ ((call.run t').2 = true ↔ Assignable call t) ∧
      (Assignable call t → (call.run t').1.map InstanceCell.pagesize = (call.run t'').1.map InstanceCell.pagesize) := by
  have hlen := hd.length_eq
  have hlen' := hd'.length_eq
  have hne' : t' ≠ [] := fun e => hne (eq_nil_of_length_eq_zero (hlen.trans (by rw [e]; rfl)))
  have hne'' : t'' ≠ [] := fun e => hne (eq_nil_of_length_eq_zero (hlen'.trans (by rw [e]; rfl)))
  have hsize : Assignable call t → t.length ≤ call.host.length := fun ⟨cells, hsub, hall⟩ => hall.length_eq ▸ hsub.length_le
  unfold FitCall.run
  rw [← hlen, ← hlen']
  by_cases hhost : call.host = []
  · have hno : ¬ Assignable call t := fun ha => by
      have hle := hsize ha
      rw [hhost] at hle
      exact hne (eq_nil_of_length_eq_zero (Nat.le_zero.mp hle))
    rw [if_pos (Or.inl hhost)]
    exact ⟨hd, iff_of_false Bool.false_ne_true hno, fun ha => absurd ha hno⟩
  · rw [if_neg (not_or.mpr ⟨hhost, hne'⟩), if_neg (not_or.mpr ⟨hhost, hne''⟩)]
    by_cases hshort : call.host.length < t.length
    · have hno : ¬ Assignable call t := fun ha => absurd (hsize ha) (not_le.mpr hshort)
      rw [if_pos hshort]
      exact ⟨hd, iff_of_false Bool.false_ne_true hno, fun ha => absurd ha hno⟩
    · rw [if_neg hshort, if_neg hshort]
      obtain ⟨hdrift, hfits, hpagesizes⟩ := drift_search hd hd' hsteady hcall fun p hp => mem_permutations (r := t.length) (l := call.host) hp
      have hassign : (∃ p ∈ permutations t.length call.host, Forall₂ call.Fits p t) ↔ Assignable call t := by
        constructor
        · rintro ⟨p, hp, hall⟩
          exact ⟨p, (mem_permutations hp).2, hall⟩
        · rintro ⟨cells, hsub, hall⟩
          exact ⟨cells, hall.length_eq ▸ mem_permutations_of_subperm hsub, hall⟩
      exact ⟨hdrift, hfits.trans hassign, fun ha => hpagesizes (hassign.mpr ha)⟩

/-- **A run of calls** lets the cells drift. -/
theorem drift_requestAfter (hd : Forall₂ (Drift calls) t t') (hsteady : ∀ c ∈ t, Steady calls c) (hne : t ≠ [])
    (hhistory : ∀ a ∈ history, a ∈ calls) : Forall₂ (Drift calls) t (requestAfter history t') := by
  induction history generalizing t' with
  | nil => exact hd
  | cons a history ih =>
    exact ih (drift_run hd hd hsteady (hhistory a mem_cons_self) hne).1 fun b hb => hhistory b (mem_cons_of_mem _ hb)

/-- **A call behind any others** with the same request: it finds what there is to find with the cells
    as they were asked for, and chooses the page sizes that it chooses as the first call. -/
theorem fit_after (history : List FitCall) (call : FitCall) (hne : t ≠ []) (hsteady : ∀ c ∈ t, Steady (call :: history) c) :
    ((call.fit (requestAfter history t)).isSome = true ↔ Assignable call t) ∧
      (call.fit (requestAfter history t)).map (List.map InstanceCell.pagesize) = (call.fit t).map (List.map InstanceCell.pagesize) := by
  have hrefl : Forall₂ (Drift (call :: history)) t t := forall₂_same.mpr fun c _ => .refl _ c
  have hd := drift_requestAfter hrefl hsteady hne fun a ha => mem_cons_of_mem call ha
  obtain ⟨-, hfits, hpagesizes⟩ := drift_run hd hrefl hsteady mem_cons_self hne
  obtain ⟨-, hfits', -⟩ := drift_run hrefl hrefl hsteady mem_cons_self hne
  rw [FitCall.fit_eq, FitCall.fit_eq]
  by_cases ha : Assignable call t
  · rw [if_pos (hfits.mpr ha), if_pos (hfits'.mpr ha)]
    exact ⟨iff_of_true rfl ha, congrArg some (hpagesizes ha)⟩
  · rw [if_neg fun he => ha (hfits.mp he), if_neg fun he => ha (hfits'.mp he)]
    exact ⟨iff_of_false Bool.false_ne_true ha, rfl⟩

/-- **An explicit page size**, or none, is steady on all hosts. -/
theorem steady_of_explicit {c : InstanceCell} (hsmall : c.pagesize ≠ some (-1)) (hlarge : c.pagesize ≠ some (-2))
    (hany : c.pagesize ≠ some (-3)) : Steady calls c := by
  intro a _ h _ b _ g _ _ _ p hp
  have hself : c.pagesize.filter (· ≠ 0) = p.filter (· ≠ 0) := by
    rw [answer] at hp
    cases hrequest : c.pagesize.filter (· ≠ 0) with
    | none =>
      rw [hrequest] at hp
      obtain rfl := Option.some.inj hp
      rfl
    | some pagesize =>
      rw [hrequest] at hp
      obtain ⟨chosen, hchosen, rfl⟩ := Option.map_eq_some_iff.mp hp
      obtain ⟨hchosen, hzero⟩ := Option.filter_eq_some_iff.mp hchosen
      obtain ⟨hpagesize, -⟩ := Option.filter_eq_some_iff.mp hrequest
      rw [hpagesize] at hsmall hlarge hany
      -- an explicit size is the only one that is tried
      have hexplicit : verifyPagesizes h (c.memory * 1024) [pagesize] = some chosen := by
        rw [supportsPagesizeRequest] at hchosen
        rwa [if_neg fun e => hsmall (congrArg some e), if_neg fun e => hlarge (congrArg some e),
          if_neg fun e => hany (congrArg some e)] at hchosen
      have heq : chosen = pagesize := by
        rw [verifyPagesizes] at hexplicit
        split at hexplicit
        · cases hexplicit
        · exact (Option.some.inj hexplicit).symm
        · cases hexplicit
      rw [heq] at hzero ⊢
      rw [Option.filter_some, if_pos hzero]
  unfold answer
  dsimp only
  rw [← hself]
  rfl

/-- One cell on a host of one cell. -/
theorem fit_oneCell {g : NumaCell} (hg : call.host = [g]) (c : InstanceCell) :
    (call.run [c]).1 = [(fitInstanceCell call.order call.limits g c).1] ∧
      (call.fit [c]).map (List.map InstanceCell.pagesize) = if (fitInstanceCell call.order call.limits g c).2 = true then
        some [(fitInstanceCell call.order call.limits g c).1.pagesize] else none := by
  have hrun : call.run [c] = ([(fitInstanceCell call.order call.limits g c).1], (fitInstanceCell call.order call.limits g c).2) := by
    rw [FitCall.run, hg]
    change searchPermutations call.order call.limits [[g]] [c] = _
    rw [searchPermutations, fitCells]
    obtain ⟨d, fits⟩ := fitInstanceCell call.order call.limits g c
    cases fits <;> rfl
  rw [FitCall.fit_eq, hrun]
  exact ⟨rfl, by split <;> rfl⟩

/-- **The condition is exact** for one cell and two hosts of one cell. -/
theorem fit_after_oneCell_iff {a b : FitCall} {h g : NumaCell} (ha : a.host = [h]) (hb : b.host = [g]) {c : InstanceCell}
    (hsuits : a.Suits h c) (hsuits' : b.Suits g c) {p : Option ℤ} (hp : answer h c = some p) :
    (b.fit (requestAfter [a] [c])).map (List.map InstanceCell.pagesize) = (b.fit [c]).map (List.map InstanceCell.pagesize) ↔
      answer g { c with pagesize := p } = answer g c := by
  obtain ⟨hsame, hfirst⟩ := fitInstanceCell_cases a.order a.limits h c
  have hpagesize : (fitInstanceCell a.order a.limits h c).1.pagesize = p := by
    rcases hfirst with ⟨-, hanswer, -⟩ | ⟨hnone, -, -⟩
    · exact Option.some.inj (hanswer.symm.trans hp)
    · rw [hnone hsuits] at hp
      cases hp
  have hone : ∀ d, b.Suits g d → (b.fit [d]).map (List.map InstanceCell.pagesize) = (answer g d).map fun p => [p] := by
    intro d hd
    rw [(fit_oneCell hb d).2]
    rcases (fitInstanceCell_cases b.order b.limits g d).2 with ⟨-, hanswer, hfits⟩ | ⟨hnone, -, hfits⟩
    · rw [if_pos hfits, hanswer]
      rfl
    · rw [hfits, if_neg Bool.false_ne_true, hnone hd]
      rfl
  have hsuits'' : b.Suits g (fitInstanceCell a.order a.limits h c).1 := by
    rw [FitCall.Suits, fitCpus_congr b.order hsame]
    exact hsuits'
  have hafter : requestAfter [a] [c] = [(fitInstanceCell a.order a.limits h c).1] := (fit_oneCell ha c).1
  rw [hafter, hone _ hsuits'', hone _ hsuits', answer_congr hsame, hpagesize]
  exact (Option.map_injective fun p q he => head_eq_of_cons_eq he).eq_iff

/-- A host cell with pages of one size. -/
def pagedCell (id memory sizeKb : ℤ) : NumaCell :=
  ⟨id, {0, 1, 2, 3}, memory, 0, 0, ∅, [], [⟨sizeKb, 4194304 / sizeKb, 0⟩]⟩

/-- A cell that asks for a page size. -/
def pagedRequest (memory pagesize : ℤ) : InstanceCell := .init {0} memory (some pagesize) none none

theorem fit_after_explicit :
    ((FitCall.fit ⟨sortedOrder, [pagedCell 0 4096 2048, pagedCell 1 4096 2048], none⟩
        (requestAfter [⟨sortedOrder, [pagedCell 0 4096 1048576], none⟩] [pagedRequest 1024 2048])).isSome = true ↔
      Assignable ⟨sortedOrder, [pagedCell 0 4096 2048, pagedCell 1 4096 2048], none⟩ [pagedRequest 1024 2048]) ∧
      (FitCall.fit ⟨sortedOrder, [pagedCell 0 4096 2048, pagedCell 1 4096 2048], none⟩
        (requestAfter [⟨sortedOrder, [pagedCell 0 4096 1048576], none⟩] [pagedRequest 1024 2048])).map (List.map InstanceCell.pagesize) =
      (FitCall.fit ⟨sortedOrder, [pagedCell 0 4096 2048, pagedCell 1 4096 2048], none⟩
        [pagedRequest 1024 2048]).map (List.map InstanceCell.pagesize) :=
  fit_after [⟨sortedOrder, [pagedCell 0 4096 1048576], none⟩] ⟨sortedOrder, [pagedCell 0 4096 2048, pagedCell 1 4096 2048], none⟩
    (cons_ne_nil _ _) fun c hc => by
      obtain rfl := mem_singleton.mp hc
      exact steady_of_explicit (by decide) (by decide) (by decide)

/-- Any pages, on hosts with one and the same size of pages. -/
theorem fit_after_oneCell_iff_same :
    (FitCall.fit ⟨sortedOrder, [pagedCell 1 4096 2048], none⟩
        (requestAfter [⟨sortedOrder, [pagedCell 0 4096 2048], none⟩] [pagedRequest 1024 (-3)])).map
          (List.map InstanceCell.pagesize) =
      (FitCall.fit ⟨sortedOrder, [pagedCell 1 4096 2048], none⟩ [pagedRequest 1024 (-3)]).map
        (List.map InstanceCell.pagesize) :=
  (fit_after_oneCell_iff (a := ⟨sortedOrder, [pagedCell 0 4096 2048], none⟩) rfl rfl (by unfold FitCall.Suits; decide +kernel)
    (by unfold FitCall.Suits; decide +kernel) (p := some 2048) (by decide +kernel)).mpr (by decide +kernel)

/-- Any page size is the host cell's only one, where the memory is there. -/
theorem fitInstanceCell_anyPages {id memory sizeKb : ℤ} (hmemory : 1024 ≤ memory)
    (hfits : (pagedCell id memory sizeKb).canFitHugepages sizeKb 1048576 = some true) (hsize : sizeKb ≠ 0) :
    fitInstanceCell sortedOrder none (pagedCell id memory sizeKb) (pagedRequest 1024 (-3)) =
      ({ pagedRequest 1024 sizeKb with id := id }, true) := by
  have hcpus : fitCpus sortedOrder none (pagedCell id memory sizeKb) (pagedRequest 1024 (-3)) = some (pagedRequest 1024 (-3)) := by
    have hcard : ¬ ((pagedCell id memory sizeKb).memory < (pagedRequest 1024 (-3)).memory ∨
        (pagedCell id memory sizeKb).cpuset.card < (pagedRequest 1024 (-3)).cpuset.card) := by
      rintro (h | h)
      · exact absurd hmemory (not_le.mpr h)
      · exact absurd h (by simp [pagedCell, pagedRequest, InstanceCell.init])
    rw [fitCpus, if_neg hcard]
    rfl
  have hsupports : supportsPagesizeRequest (pagedCell id memory sizeKb) (pagedRequest 1024 (-3)) (-3) = some sizeKb := by
    have hsizes : (pagedCell id memory sizeKb).mempages.map PagesTopology.sizeKb = [sizeKb] := rfl
    have hbytes : (pagedRequest 1024 (-3)).memory * 1024 = 1048576 := rfl
    rw [supportsPagesizeRequest, hsizes, hbytes, mergeSort_singleton,
      if_neg (by decide), if_neg (by decide), if_pos rfl, verifyPagesizes, hfits]
  have hpagesize : (pagedRequest 1024 (-3)).pagesize.filter (· ≠ 0) = some (-3) := rfl
  rw [fitInstanceCell, hcpus]
  dsimp only
  rw [hpagesize]
  dsimp only
  rw [hsupports, Option.filter_some, if_pos (by simpa using hsize)]
  rfl

/-- **Any pages.** A request that has been answered with pages of 1 GiB on one host does not fit any more on
    one with pages of 2 MiB; and in one call, the first permutation fixes the page size of a cell that the
    second would need otherwise. -/
theorem fit_after_anyPages :
    Assignable ⟨sortedOrder, [pagedCell 0 4096 2048], none⟩ [pagedRequest 1024 (-3)] ∧
      FitCall.fit ⟨sortedOrder, [pagedCell 0 4096 2048], none⟩
        (requestAfter [⟨sortedOrder, [pagedCell 0 4096 1048576], none⟩] [pagedRequest 1024 (-3)]) = none ∧
      Assignable ⟨sortedOrder, [pagedCell 0 4096 1048576, pagedCell 1 1024 2048], none⟩
        [pagedRequest 1024 (-3), .init {0} 2048 none none none] ∧
      FitCall.fit ⟨sortedOrder, [pagedCell 0 4096 1048576, pagedCell 1 1024 2048], none⟩
        [pagedRequest 1024 (-3), .init {0} 2048 none none none] = none := by
  have hgib : fitInstanceCell sortedOrder none (pagedCell 0 4096 1048576) (pagedRequest 1024 (-3)) =
      ({ pagedRequest 1024 1048576 with id := 0 }, true) := fitInstanceCell_anyPages (by norm_num) (by decide) (by norm_num)
  have hmib : fitInstanceCell sortedOrder none (pagedCell 0 4096 2048) (pagedRequest 1024 (-3)) =
      ({ pagedRequest 1024 2048 with id := 0 }, true) := fitInstanceCell_anyPages (by norm_num) (by decide) (by norm_num)
  have hmib' : fitInstanceCell sortedOrder none (pagedCell 1 1024 2048) (pagedRequest 1024 (-3)) =
      ({ pagedRequest 1024 2048 with id := 1 }, true) := fitInstanceCell_anyPages (by norm_num) (by decide) (by norm_num)
  refine ⟨⟨[pagedCell 0 4096 2048], Subperm.refl _, .cons ?_ .nil⟩, ?_,
    ⟨[pagedCell 1 1024 2048, pagedCell 0 4096 1048576], (Perm.swap _ _ _).subperm, .cons ?_ (.cons ?_ .nil)⟩, ?_⟩
  · rw [FitCall.Fits, hmib]
  · have hafter : requestAfter [⟨sortedOrder, [pagedCell 0 4096 1048576], none⟩] [pagedRequest 1024 (-3)] =
        [{ pagedRequest 1024 1048576 with id := 0 }] := by
      have hrun : requestAfter [⟨sortedOrder, [pagedCell 0 4096 1048576], none⟩] [pagedRequest 1024 (-3)] =
          [(fitInstanceCell sortedOrder none (pagedCell 0 4096 1048576) (pagedRequest 1024 (-3))).1] := (fit_oneCell rfl _).1
      rwa [hgib] at hrun
    rw [hafter]
    decide +kernel
  · rw [FitCall.Fits, hmib']
  · rw [FitCall.Fits]
    decide +kernel
  · have hsearch : FitCall.run ⟨sortedOrder, [pagedCell 0 4096 1048576, pagedCell 1 1024 2048], none⟩
        [pagedRequest 1024 (-3), .init {0} 2048 none none none] =
          searchPermutations sortedOrder none [[pagedCell 0 4096 1048576, pagedCell 1 1024 2048],
            [pagedCell 1 1024 2048, pagedCell 0 4096 1048576]] [pagedRequest 1024 (-3), .init {0} 2048 none none none] := rfl
    have hsecond : (searchPermutations sortedOrder none [[pagedCell 1 1024 2048, pagedCell 0 4096 1048576]]
        [{ pagedRequest 1024 1048576 with id := 0 }, .init {0} 2048 none none none]).2 = false := by decide +kernel
    have hfirst : fitCells sortedOrder none [pagedCell 0 4096 1048576, pagedCell 1 1024 2048]
        [pagedRequest 1024 (-3), .init {0} 2048 none none none] =
          ([{ pagedRequest 1024 1048576 with id := 0 }, .init {0} 2048 none none none], false) := by
      rw [fitCells, hgib]
      decide +kernel
    rw [FitCall.fit_eq, hsearch, searchPermutations, hfirst]
    dsimp only
    rw [hsecond]
    rfl

end Runs

end Mitaka.Nova
