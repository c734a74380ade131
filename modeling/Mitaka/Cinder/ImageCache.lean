/-
  Subject: cinder/image/cache.py, `ensure_space` and `_delete_image_volume`.

  The entries of a host are ordered from the most recently used one on, as the database
  returns them. Sizes are whole gigabytes, and a limit of zero is none.

  A limit that is not set takes part in the loop as a limit of zero: what is deleted is
  the shortest end of the list only where the other limit asks for as much
  (**`ensureSpace_minimal_iff`**).
-/
import Mathlib

namespace Mitaka.Cinder

open List

/-! ## 1. The cache -/

/-- What is read of an entry of the cache. -/
structure CacheEntry where
  volumeId : List Char
  size : ℕ
deriving Repr, DecidableEq

/-- The limits of a cache. -/
structure ImageVolumeCache where
  maxCacheSizeGb : ℕ
  maxCacheSizeCount : ℕ
deriving Repr, DecidableEq

/-- What `ensure_space` returns, what it deleted, in that order, and what is left. -/
structure Space where
  ok : Bool
  deleted : List CacheEntry
  kept : List CacheEntry
deriving Repr, DecidableEq

namespace ImageVolumeCache

variable (cache : ImageVolumeCache)

/-- The condition of the loop on the size and the count, the new entry included. -/
def Over (currentSize currentCount : ℕ) : Prop :=
  currentSize > cache.maxCacheSizeGb ∨ currentCount > cache.maxCacheSizeCount

instance (currentSize currentCount : ℕ) : Decidable (cache.Over currentSize currentCount) :=
  inferInstanceAs (Decidable (_ ∨ _))

/-- The loop of `ensure_space`. The entries are given from the end on, from which `pop` takes them; what is deleted,
what is left and the size of it. -/
def reclaim : List CacheEntry → ℕ → ℕ → List CacheEntry × List CacheEntry × ℕ
  | [], currentSize, _ => ([], [], currentSize)
  | entry :: entries, currentSize, currentCount =>
    if cache.Over currentSize currentCount then
      let rest := reclaim entries (currentSize - entry.size) (currentCount - 1)
      (entry :: rest.1, rest.2)
    else ([], entry :: entries, currentSize)

/-- `ensure_space`, with the entries of the host. -/
def ensureSpace (entries : List CacheEntry) (spaceRequired : ℕ) : Space :=
  if cache.maxCacheSizeGb = 0 ∧ cache.maxCacheSizeCount = 0 then ⟨true, [], entries⟩
  else if cache.maxCacheSizeGb ≠ 0 ∧ spaceRequired > cache.maxCacheSizeGb then ⟨false, [], entries⟩
  else
    let currentCount := entries.length + 1
    let currentSize := (entries.map CacheEntry.size).sum + spaceRequired
    let rest := cache.reclaim entries.reverse currentSize currentCount
    let kept := rest.2.1.reverse
    if cache.maxCacheSizeGb > 0 ∧ rest.2.2 > cache.maxCacheSizeGb then ⟨false, rest.1, kept⟩
    else ⟨true, rest.1, kept⟩

/-! ## 2. What is asked for -/

/-- The size of entries with the new one. -/
def sizeWith (spaceRequired : ℕ) (entries : List CacheEntry) : ℕ := (entries.map CacheEntry.size).sum + spaceRequired

/-- The entries and the new one meet the limits that are set. -/
structure Fits (spaceRequired : ℕ) (entries : List CacheEntry) : Prop where
  size : cache.maxCacheSizeGb ≠ 0 → sizeWith spaceRequired entries ≤ cache.maxCacheSizeGb
  count : cache.maxCacheSizeCount ≠ 0 → entries.length + 1 ≤ cache.maxCacheSizeCount

/-- The request alone exceeds the size limit. -/
def TooLarge (spaceRequired : ℕ) : Prop := cache.maxCacheSizeGb ≠ 0 ∧ spaceRequired > cache.maxCacheSizeGb

/-- The shortest end of the list is deleted that makes room, and nothing where no end does; the answer is whether there
is room. -/
structure EvictsMinimally (entries : List CacheEntry) (spaceRequired : ℕ) (space : Space) : Prop where
  suffix : space.kept ++ space.deleted.reverse = entries
  tooLarge : cache.TooLarge spaceRequired → space.deleted = []
  room : ¬ cache.TooLarge spaceRequired → cache.Fits spaceRequired space.kept
  shortest : ¬ cache.TooLarge spaceRequired → ∀ longer, longer <+: entries → cache.Fits spaceRequired longer →
    longer.length ≤ space.kept.length
  holds : cache.Fits spaceRequired entries → space.deleted = []
  answer : space.ok = true ↔ cache.Fits spaceRequired space.kept

/-! ## 3. The loop -/

section Loop

variable {cache} {spaceRequired : ℕ} {entries kept longer : List CacheEntry}

theorem sizeWith_cons (entry : CacheEntry) :
    sizeWith spaceRequired (entry :: entries) = entry.size + sizeWith spaceRequired entries := by
  unfold sizeWith
  rw [map_cons, sum_cons, Nat.add_assoc]

theorem sizeWith_reverse : sizeWith spaceRequired entries.reverse = sizeWith spaceRequired entries := by
  unfold sizeWith
  rw [map_reverse, sum_reverse]

theorem sizeWith_mono (h : kept <+: entries) : sizeWith spaceRequired kept ≤ sizeWith spaceRequired entries := by
  obtain ⟨rest, rfl⟩ := h
  simp [sizeWith, sum_append]

theorem Fits.mono (h : kept <+: entries) (hfits : cache.Fits spaceRequired entries) : cache.Fits spaceRequired kept :=
  ⟨fun hset => (sizeWith_mono h).trans (hfits.size hset),
    fun hset => (Nat.succ_le_succ h.length_le).trans (hfits.count hset)⟩

/-- What is left is over no limit or is empty, and everything longer was over one. -/
structure Reclaimed (cache : ImageVolumeCache) (spaceRequired : ℕ) (entries deleted kept : List CacheEntry) (size : ℕ) :
    Prop where
  parts : deleted ++ kept = entries
  size_eq : size = sizeWith spaceRequired kept
  done : kept = [] ∨ ¬ cache.Over (sizeWith spaceRequired kept) (kept.length + 1)
  exceeded : ∀ longer, longer <:+ entries → kept.length < longer.length →
    cache.Over (sizeWith spaceRequired longer) (longer.length + 1)

/-- **The loop**, when it starts with the size and the count of its entries and the new one. -/
theorem reclaim_spec (spaceRequired : ℕ) (entries : List CacheEntry) :
    let rest := cache.reclaim entries (sizeWith spaceRequired entries) (entries.length + 1)
    cache.Reclaimed spaceRequired entries rest.1 rest.2.1 rest.2.2 := by
  induction entries with
  | nil =>
    refine ⟨rfl, rfl, .inl rfl, fun longer hlonger hlt => ?_⟩
    rw [suffix_nil.mp hlonger] at hlt
    exact absurd hlt (Nat.lt_irrefl _)
  | cons entry entries ih =>
    by_cases hover : cache.Over (sizeWith spaceRequired (entry :: entries)) ((entry :: entries).length + 1)
    · have hsize : sizeWith spaceRequired (entry :: entries) - entry.size = sizeWith spaceRequired entries := by
        rw [sizeWith_cons, Nat.add_sub_cancel_left]
      have hrec : cache.reclaim (entry :: entries) (sizeWith spaceRequired (entry :: entries)) ((entry :: entries).length + 1) =
          (entry :: (cache.reclaim entries (sizeWith spaceRequired entries) (entries.length + 1)).1,
            (cache.reclaim entries (sizeWith spaceRequired entries) (entries.length + 1)).2) := by
        rw [reclaim, if_pos hover, hsize]
        rfl
      rw [hrec]
      refine ⟨by rw [cons_append, ih.parts], ih.size_eq, ih.done, fun longer hlonger hlt => ?_⟩
      rcases suffix_cons_iff.mp hlonger with rfl | hlonger
      · exact hover
      · exact ih.exceeded longer hlonger hlt
    · rw [reclaim, if_neg hover]
      refine ⟨rfl, rfl, .inr hover, fun longer hlonger hlt => ?_⟩
      exact absurd hlt (not_lt.mpr hlonger.length_le)

/-- What `ensure_space` does when it comes to the loop. -/
structure Looped (cache : ImageVolumeCache) (entries : List CacheEntry) (spaceRequired : ℕ) (space : Space) : Prop where
  suffix : space.kept ++ space.deleted.reverse = entries
  done : space.kept = [] ∨ ¬ cache.Over (sizeWith spaceRequired space.kept) (space.kept.length + 1)
  exceeded : ∀ longer, longer <+: entries → space.kept.length < longer.length →
    cache.Over (sizeWith spaceRequired longer) (longer.length + 1)
  answer : space.ok = true ↔ ¬ (cache.maxCacheSizeGb > 0 ∧ sizeWith spaceRequired space.kept > cache.maxCacheSizeGb)

theorem ensureSpace_looped (hset : ¬ (cache.maxCacheSizeGb = 0 ∧ cache.maxCacheSizeCount = 0))
    (hsmall : ¬ cache.TooLarge spaceRequired) :
    cache.Looped entries spaceRequired (cache.ensureSpace entries spaceRequired) := by
  obtain ⟨hparts, hsize, hdone, hover⟩ := @reclaim_spec cache spaceRequired entries.reverse
  rw [sizeWith_reverse, length_reverse] at hparts hsize hdone hover
  generalize hrest : cache.reclaim entries.reverse (sizeWith spaceRequired entries) (entries.length + 1) = rest at *
  have hspace : cache.ensureSpace entries spaceRequired =
      ⟨!decide (cache.maxCacheSizeGb > 0 ∧ rest.2.2 > cache.maxCacheSizeGb), rest.1, rest.2.1.reverse⟩ := by
    have hloop : cache.ensureSpace entries spaceRequired =
        if cache.maxCacheSizeGb > 0 ∧ rest.2.2 > cache.maxCacheSizeGb then ⟨false, rest.1, rest.2.1.reverse⟩
        else ⟨true, rest.1, rest.2.1.reverse⟩ := by
      rw [← hrest]
      exact (if_neg hset).trans (if_neg hsmall)
    rw [hloop]
    split_ifs with hfull <;> simp [hfull]
  rw [hspace]
  refine ⟨?_, ?_, fun longer hlonger hlt => ?_, ?_⟩
  · rw [← reverse_append, hparts, reverse_reverse]
  · rw [sizeWith_reverse, length_reverse, reverse_eq_nil_iff]
    exact hdone
  · have hlong := hover longer.reverse (reverse_suffix.mpr hlonger)
    rw [sizeWith_reverse, length_reverse] at hlong
    exact hlong (by rwa [length_reverse] at hlt)
  · rw [sizeWith_reverse, ← hsize, Bool.not_eq_true', decide_eq_false_iff_not]

end Loop

/-! ## 4. When the shortest end goes -/

section Minimal

variable {cache} {spaceRequired : ℕ} {entries : List CacheEntry} {space : Space}

theorem fits_nil (hsmall : ¬ cache.TooLarge spaceRequired) : cache.Fits spaceRequired [] := by
  refine ⟨fun hset => ?_, fun hset => Nat.one_le_iff_ne_zero.mpr hset⟩
  rw [sizeWith, map_nil, sum_nil, Nat.zero_add]
  exact not_lt.mp fun hlt => hsmall ⟨hset, hlt⟩

theorem Fits.of_not_over (h : ¬ cache.Over (sizeWith spaceRequired entries) (entries.length + 1)) :
    cache.Fits spaceRequired entries := by
  rw [Over, not_or, not_lt, not_lt] at h
  exact ⟨fun _ => h.1, fun _ => h.2⟩

theorem Looped.fits (h : cache.Looped entries spaceRequired space) (hsmall : ¬ cache.TooLarge spaceRequired) :
    cache.Fits spaceRequired space.kept := by
  rcases h.done with hnil | hdone
  · rw [hnil]
    exact fits_nil hsmall
  · exact .of_not_over hdone

/-- After the loop the rest of what is asked for follows from what it leaves being the longest that fits. -/
theorem Looped.minimal_iff (h : cache.Looped entries spaceRequired space) (hsmall : ¬ cache.TooLarge spaceRequired) :
    cache.EvictsMinimally entries spaceRequired space ↔
      ∀ longer, longer <+: entries → cache.Fits spaceRequired longer → longer.length ≤ space.kept.length := by
  refine ⟨fun hmin => hmin.shortest hsmall, fun hshortest => ?_⟩
  have hfits := h.fits hsmall
  refine ⟨h.suffix, fun hlarge => absurd hlarge hsmall, fun _ => hfits, fun _ => hshortest, fun hall => ?_, ?_⟩
  · have hlen := hshortest entries (prefix_refl _) hall
    rw [← h.suffix, length_append, length_reverse] at hlen
    exact length_eq_zero_iff.mp (by omega)
  · rw [h.answer]
    exact iff_of_true (fun hfull => not_lt.mpr (hfits.size hfull.1.ne') hfull.2) hfits

/-- With both limits what is over the condition of the loop is what does not fit. -/
theorem Looped.shortest_of_both (h : cache.Looped entries spaceRequired space) (hgb : cache.maxCacheSizeGb ≠ 0)
    (hcount : cache.maxCacheSizeCount ≠ 0) {longer : List CacheEntry} (hlonger : longer <+: entries)
    (hfits : cache.Fits spaceRequired longer) : longer.length ≤ space.kept.length := by
  by_contra hlt
  rcases h.exceeded longer hlonger (not_le.mp hlt) with hover | hover
  · exact not_lt.mpr (hfits.size hgb) hover
  · exact not_lt.mpr (hfits.count hcount) hover

/-- Everything has to go, or the limit is one on the count and what may stay is of no size. -/
def NothingStays (cache : ImageVolumeCache) (entries : List CacheEntry) (spaceRequired : ℕ) : Prop :=
  entries = [] ∨ ¬ cache.Fits spaceRequired (entries.take 1) ∨
    cache.maxCacheSizeGb = 0 ∧ sizeWith spaceRequired (entries.take (cache.maxCacheSizeCount - 1)) = 0

/-- **With one limit** the loop goes on until nothing is left or what is left is of no size. -/
theorem Looped.shortest_iff_of_one (h : cache.Looped entries spaceRequired space)
    (hone : ¬ (cache.maxCacheSizeGb = 0 ↔ cache.maxCacheSizeCount = 0)) :
    (∀ longer, longer <+: entries → cache.Fits spaceRequired longer → longer.length ≤ space.kept.length) ↔
      cache.NothingStays entries spaceRequired := by
  have hkept : space.kept <+: entries := ⟨_, h.suffix⟩
  constructor
  · intro hshortest
    by_contra hstays
    rw [NothingStays, not_or, not_or, not_not] at hstays
    obtain ⟨hne, hfirst, hzero⟩ := hstays
    have hlen := hshortest _ ( take_prefix 1 entries) hfirst
    have hpos : 0 < entries.length := length_pos_iff.mpr hne
    rw [length_take, Nat.min_eq_left hpos] at hlen
    have hdone := h.done.resolve_left fun hnil => by rw [hnil] at hlen; exact absurd hlen (by decide)
    rw [Over, not_or, not_lt, not_lt] at hdone
    -- the count is the limit that is set, and what is left is of no size
    have hgb : cache.maxCacheSizeGb = 0 := by
      by_contra hgb
      have hcount : cache.maxCacheSizeCount = 0 := by
        by_contra hcount
        exact hone (iff_of_false hgb hcount)
      omega
    have hcount : cache.maxCacheSizeCount ≠ 0 := fun hcount => hone (iff_of_true hgb hcount)
    have hmay : cache.Fits spaceRequired (entries.take (cache.maxCacheSizeCount - 1)) := by
      refine ⟨fun hset => absurd hgb hset, fun _ => ?_⟩
      have hle := length_take_le (cache.maxCacheSizeCount - 1) entries
      omega
    have hprefix := prefix_of_prefix_length_le ( take_prefix _ _) hkept (hshortest _ ( take_prefix _ _) hmay)
    have hsize := @sizeWith_mono spaceRequired _ _ hprefix
    exact hzero ⟨hgb, by omega⟩
  · rintro (rfl | hfirst | ⟨hgb, hzero⟩) longer hlonger hfits
    · rw [prefix_nil.mp hlonger]
      exact Nat.zero_le _
    · by_contra hlt
      have htake : entries.take 1 <+: longer := by
        refine prefix_of_prefix_length_le ( take_prefix _ _) hlonger ?_
        have hle := length_take_le 1 entries
        omega
      exact hfirst (hfits.mono htake)
    · have hcount : cache.maxCacheSizeCount ≠ 0 := fun hcount => hone (iff_of_true hgb hcount)
      have hle := hfits.count hcount
      have htake : longer <+: entries.take (cache.maxCacheSizeCount - 1) := by
        refine prefix_of_prefix_length_le hlonger ( take_prefix _ _) ?_
        have hlen := hlonger.length_le
        rw [length_take]
        omega
      have hsize := @sizeWith_mono spaceRequired _ _ htake
      by_contra hlt
      rcases h.exceeded longer hlonger (not_le.mp hlt) with hover | hover <;> omega

theorem minimal_tooLarge (h : cache.TooLarge spaceRequired) :
    cache.EvictsMinimally entries spaceRequired (cache.ensureSpace entries spaceRequired) := by
  have hspace : cache.ensureSpace entries spaceRequired = ⟨false, [], entries⟩ :=
    (if_neg fun hzero => h.1 hzero.1).trans (if_pos h)
  have hnot : ¬ cache.Fits spaceRequired entries := fun hfits => by
    have hsize := hfits.size h.1
    have hlarge := h.2
    unfold sizeWith at hsize
    omega
  rw [hspace]
  exact ⟨append_nil _, fun _ => rfl, fun hsmall => absurd h hsmall, fun hsmall => absurd h hsmall, fun _ => rfl,
    iff_of_false nofun hnot⟩

theorem minimal_unlimited (h : cache.maxCacheSizeGb = 0 ∧ cache.maxCacheSizeCount = 0) :
    cache.EvictsMinimally entries spaceRequired (cache.ensureSpace entries spaceRequired) := by
  have hspace : cache.ensureSpace entries spaceRequired = ⟨true, [], entries⟩ := if_pos h
  have hfits : cache.Fits spaceRequired entries := ⟨fun hset => absurd h.1 hset, fun hset => absurd h.2 hset⟩
  rw [hspace]
  exact ⟨append_nil _, fun _ => rfl, fun _ => hfits, fun _ longer hlonger _ => hlonger.length_le, fun _ => rfl,
    iff_of_true rfl hfits⟩

end Minimal

/-- **When `ensure_space` deletes the shortest end of the list**: with both limits or none, when the request alone is too
large, and with one limit only where nothing could stay anyway. -/
theorem ensureSpace_minimal_iff (entries : List CacheEntry) (spaceRequired : ℕ) :
    cache.EvictsMinimally entries spaceRequired (cache.ensureSpace entries spaceRequired) ↔
      (cache.maxCacheSizeGb = 0 ↔ cache.maxCacheSizeCount = 0) ∨ cache.TooLarge spaceRequired ∨
        cache.NothingStays entries spaceRequired := by
  by_cases hlarge : cache.TooLarge spaceRequired
  · exact iff_of_true (minimal_tooLarge hlarge) (.inr (.inl hlarge))
  by_cases hboth : cache.maxCacheSizeGb = 0 ↔ cache.maxCacheSizeCount = 0
  · refine iff_of_true ?_ (.inl hboth)
    by_cases hgb : cache.maxCacheSizeGb = 0
    · exact minimal_unlimited ⟨hgb, hboth.mp hgb⟩
    · have hlooped : cache.Looped entries spaceRequired (cache.ensureSpace entries spaceRequired) :=
        ensureSpace_looped (fun hzero => hgb hzero.1) hlarge
      exact (hlooped.minimal_iff hlarge).mpr fun longer hlonger hfits =>
        hlooped.shortest_of_both hgb (mt hboth.mpr hgb) hlonger hfits
  · have hlooped : cache.Looped entries spaceRequired (cache.ensureSpace entries spaceRequired) := ensureSpace_looped
      (fun hzero => hboth (iff_of_true hzero.1 hzero.2)) hlarge
    rw [hlooped.minimal_iff hlarge, hlooped.shortest_iff_of_one hboth]
    exact ⟨fun h => .inr (.inr h), fun h => (h.resolve_left hboth).resolve_left hlarge⟩

/-- With a limit of 30 GB and none on the count an entry of 5 GB is deleted for one of 10 GB. -/
theorem ensureSpace_evicts_all :
    (ImageVolumeCache.mk 30 0).ensureSpace [⟨['a'], 5⟩] 10 = ⟨true, [⟨['a'], 5⟩], []⟩ ∧
      ¬ (ImageVolumeCache.mk 30 0).EvictsMinimally [⟨['a'], 5⟩] 10
        ((ImageVolumeCache.mk 30 0).ensureSpace [⟨['a'], 5⟩] 10) := by
  have hspace : (ImageVolumeCache.mk 30 0).ensureSpace [⟨['a'], 5⟩] 10 = ⟨true, [⟨['a'], 5⟩], []⟩ := rfl
  refine ⟨hspace, fun hmin => ?_⟩
  have hdeleted := hmin.holds ⟨fun _ => by decide, fun hset => absurd rfl hset⟩
  rw [hspace] at hdeleted
  cases hdeleted

end ImageVolumeCache

end Mitaka.Cinder
