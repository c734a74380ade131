/-
  Subject: keystone/token/providers/fernet/utils.py, `initialize_key_repository`,
           `rotate_keys` and `load_keys`.

  The key repository is a directory of files whose names are numbers. It holds a key ring:
  a staged key, which is the file `0`, and the active keys, the newest first. A rotation
  puts the staged key in front of the active ones and drops the oldest
  (`rotateKeys_holds`). From it: a key is loaded by the nodes that have staged it, and for
  `max_active_keys - 2` rotations more than it is primary (`keyRun_window`).

  The files are all regular files; owners and modes are left out. No file has the name of
  a number that is printed in another way, such as `00`, which would hide the file `0`.
-/
import Mitaka.Swift.Range
import Mitaka.Keystone.Text
import Mitaka.Lib.Dict
import Mitaka.Lib.Sorting

namespace Mitaka.Keystone

open Mitaka.Swift (pyInt intStr pyInt_intStr)
open Mitaka.Sorting List Option

variable {κ : Type}

/-! ## 1. The directory -/

/-- The files in the order in which they are listed, with their contents. -/
abbrev KeyRepository (κ : Type) := Dict Str κ

namespace KeyRepository

/-- `os.rename`; without the file it is an `OSError`. -/
def rename (repo : KeyRepository κ) (src dst : Str) : Option (KeyRepository κ) :=
  (repo.get src).map fun key => (repo.erase src).set dst key

/-- `os.remove`. -/
def remove (repo : KeyRepository κ) (path : Str) : Option (KeyRepository κ) :=
  (repo.get path).map fun _ => repo.erase path

/-- What is kept of the files whose name is a number. -/
def byNumber {β : Type} (keep : Str × κ → β) (repo : KeyRepository κ) : Dict ℤ β :=
  repo.foldl (fun keys file =>
    match pyInt file.1 with
    | some keyId => keys.set keyId (keep file)
    | none => keys) []

end KeyRepository

/-! ## 2. The operations -/

/-- `_create_new_key`. -/
def createNewKey (repo : KeyRepository κ) (key : κ) : KeyRepository κ := repo.set ['0'] key

/-- `key_files` of `rotate_keys`. -/
def keyFiles (repo : KeyRepository κ) : Dict ℤ Str := repo.byNumber Prod.fst

/-- The loop that purges, over `keys` from its end. -/
def purge (keyFiles : Dict ℤ Str) (bound : ℤ) : List ℤ → KeyRepository κ → Option (KeyRepository κ)
  | [], repo => some repo
  | indexToPurge :: keys, repo =>
    if ((keys.length + 1 : ℕ) : ℤ) > bound then
      (keyFiles.get indexToPurge).bind fun keyToPurge => (repo.remove keyToPurge).bind (purge keyFiles bound keys)
    else some repo

/-- `rotate_keys`, for the key that is generated; `none` where it raises. -/
def rotateKeys (maxActiveKeys : ℤ) (repo : KeyRepository κ) (newKey : κ) : Option (KeyRepository κ) :=
  let files := keyFiles repo
  (files.map Prod.fst).max?.bind fun currentPrimaryKey =>
    let newPrimaryKey := currentPrimaryKey + 1
    (repo.rename ['0'] (intStr newPrimaryKey)).bind fun repo =>
      (files.get 0).bind fun _ =>
        let files := (files.erase 0).set newPrimaryKey (intStr newPrimaryKey)
        let repo := createNewKey repo newKey
        let maxActiveKeys := if maxActiveKeys < 1 then 1 else maxActiveKeys
        purge files (maxActiveKeys - 1) (sortDesc id (files.map Prod.fst)).reverse repo

/-- `initialize_key_repository`, for the two keys that are generated. -/
def initializeKeyRepository (maxActiveKeys : ℤ) (repo : KeyRepository κ) (firstKey newKey : κ) :
    Option (KeyRepository κ) :=
  if (repo.get ['0']).isSome then some repo else rotateKeys maxActiveKeys (createNewKey repo firstKey) newKey

/-- `load_keys`. -/
def loadKeys (repo : KeyRepository κ) : List κ :=
  let keys := repo.byNumber Prod.snd
  (sortDesc id (keys.map Prod.fst)).filterMap keys.get

/-- The repository after some rotations, for the keys that are generated one after the
    other. A directory is listed in any order. -/
inductive KeyRun (maxActiveKeys : ℤ) (start : KeyRepository κ) (keys : ℕ → κ) : ℕ → KeyRepository κ → Prop
  | bootstrap {repo listed : KeyRepository κ} :
      initializeKeyRepository maxActiveKeys start (keys 0) (keys 1) = some repo → listed.Perm repo →
      KeyRun maxActiveKeys start keys 0 listed
  | rotate {i : ℕ} {repo repo' listed : KeyRepository κ} :
      KeyRun maxActiveKeys start keys i repo → rotateKeys maxActiveKeys repo (keys (i + 2)) = some repo' →
      listed.Perm repo' → KeyRun maxActiveKeys start keys (i + 1) listed

/-! ## 3. Key rings -/

/-- A key for the next rotation, and the keys that are or were primary, the newest first. -/
structure KeyRing (κ : Type) where
  staged : κ
  active : List κ

/-- The staged key becomes the primary one. -/
def KeyRing.rotate (maxActiveKeys : ℤ) (ring : KeyRing κ) (newKey : κ) : KeyRing κ :=
  ⟨newKey, (ring.staged :: ring.active).take ((if maxActiveKeys < 1 then 1 else maxActiveKeys) - 1).toNat⟩

/-- The files are the ring, for the numbers of the active keys. -/
structure KeyRepository.Holds (repo : KeyRepository κ) (numbers : List ℤ) (ring : KeyRing κ) : Prop where
  nodup : repo.KeysNodup
  /-- a file of a number has the name that the number is printed as -/
  named : ∀ name n, (repo.get name).isSome = true → pyInt name = some n → name = intStr n
  staged : repo.get ['0'] = some ring.staged
  descending : numbers.Pairwise fun a b => b < a
  positive : ∀ n ∈ numbers, 0 < n
  files : ∀ n, (repo.get (intStr n)).isSome = true ↔ n = 0 ∨ n ∈ numbers
  active : numbers.map (fun n => repo.get (intStr n)) = ring.active.map some

/-- A directory without the file `0`. The files of other numbers, if there are any, are keys
    that have been primary. -/
structure KeyRepository.Fresh (repo : KeyRepository κ) : Prop where
  nodup : repo.KeysNodup
  named : ∀ name n, (repo.get name).isSome = true → pyInt name = some n → name = intStr n ∧ 0 < n

theorem intStr_injective : Function.Injective intStr := fun m n h => by
  have hm := pyInt_intStr m
  rw [h, pyInt_intStr] at hm
  exact (Option.some.inj hm).symm

theorem intStr_zero : intStr 0 = ['0'] := by decide

/-! ## 4. What is read of a directory -/

namespace KeyRepository

theorem byNumber_append {β : Type} (keep : Str × κ → β) (repo : KeyRepository κ) (file : Str × κ) :
    byNumber keep (repo ++ [file]) =
      match pyInt file.1 with
      | some keyId => (byNumber keep repo).set keyId (keep file)
      | none => byNumber keep repo := by
  unfold byNumber
  rw [foldl_append]
  rfl

theorem byNumber_nodup {β : Type} (keep : Str × κ → β) (repo : KeyRepository κ) : (byNumber keep repo).KeysNodup := by
  induction repo using reverseRecOn with
  | nil => exact nodup_nil
  | append_singleton repo file ih =>
    rw [byNumber_append]
    split
    · exact ih.set _ _
    · exact ih

/-- The file of a number is the one with its name. -/
theorem get_byNumber {β : Type} (keep : Str × κ → β) {repo : KeyRepository κ} (hnodup : repo.KeysNodup)
    (hnamed : ∀ name n, (repo.get name).isSome = true → pyInt name = some n → name = intStr n) (n : ℤ) :
    (byNumber keep repo).get n = (repo.get (intStr n)).map fun key => keep (intStr n, key) := by
  have key : ∀ file, file ∈ repo ↔ repo.get file.1 = some file.2 := fun file => hnodup.mem_iff
  -- for the files that are read, what the dict has for `n`
  have hread : ∀ files : KeyRepository κ, (∀ file ∈ files, file ∈ repo) → ∀ b, (byNumber keep files).get n = some b ↔
      ∃ file ∈ files, file.1 = intStr n ∧ keep file = b := by
    intro files
    induction files using reverseRecOn with
    | nil =>
      intro _ b
      simp [byNumber]
    | append_singleton files file ih =>
      intro hsub b
      have hfile : repo.get file.1 = some file.2 := (key file).mp (hsub file (mem_append_right _ mem_cons_self))
      have ih := ih fun f hf => hsub f (mem_append_left _ hf)
      have hsame : ∀ f ∈ files, f.1 = file.1 → f = file := fun f hf hname => by
        have hget := (key f).mp (hsub f (mem_append_left _ hf))
        rw [hname, hfile] at hget
        exact Prod.ext hname (Option.some.inj hget).symm
      rw [byNumber_append]
      cases hint : pyInt file.1 with
      | none =>
        dsimp only
        rw [ih]
        refine ⟨fun ⟨f, hf, h⟩ => ⟨f, mem_append_left _ hf, h⟩, ?_⟩
        rintro ⟨f, hf, hname, hb⟩
        rcases mem_append.mp hf with hf | hf
        · exact ⟨f, hf, hname, hb⟩
        · obtain rfl := mem_singleton.mp hf
          rw [hname, pyInt_intStr] at hint
          cases hint
      | some keyId =>
        have hname : file.1 = intStr keyId := hnamed _ _ (by rw [hfile]; rfl) hint
        dsimp only
        rw [Dict.get_set]
        by_cases hn : keyId = n
        · subst hn
          rw [if_pos rfl, Option.some.injEq]
          refine ⟨fun hb => ⟨file, mem_append_right _ mem_cons_self, hname, hb⟩, ?_⟩
          rintro ⟨f, hf, hname', hb⟩
          rcases mem_append.mp hf with hf | hf
          · rw [hsame f hf (hname'.trans hname.symm)] at hb
            exact hb
          · rw [mem_singleton.mp hf] at hb
            exact hb
        · rw [if_neg hn, ih]
          refine ⟨fun ⟨f, hf, h⟩ => ⟨f, mem_append_left _ hf, h⟩, ?_⟩
          rintro ⟨f, hf, hname', hb⟩
          rcases mem_append.mp hf with hf | hf
          · exact ⟨f, hf, hname', hb⟩
          · obtain rfl := mem_singleton.mp hf
            exact absurd (intStr_injective (hname.symm.trans hname')) hn
  refine Option.ext fun b => ?_
  rw [hread repo (fun _ h => h) b, map_eq_some_iff]
  constructor
  · rintro ⟨⟨name, k⟩, hfile, rfl, hb⟩
    exact ⟨k, (key _).mp hfile, hb⟩
  · rintro ⟨k, hget, hb⟩
    exact ⟨(intStr n, k), (key (intStr n, k)).mpr hget, rfl, hb⟩

/-! ## 5. A repository that holds a ring -/

namespace Holds

variable {repo : KeyRepository κ} {numbers : List ℤ} {ring : KeyRing κ} (h : repo.Holds numbers ring)
include h

theorem nodup_numbers : (0 :: numbers).Nodup :=
  nodup_cons.mpr ⟨fun h0 => absurd (h.positive 0 h0) (lt_irrefl 0), h.descending.imp fun hlt => ne_of_gt hlt⟩

/-- The numbers of the files. -/
theorem keys_perm {β : Type} (keep : Str × κ → β) : ((byNumber keep repo).map Prod.fst).Perm (0 :: numbers) := by
  refine (perm_ext_iff_of_nodup (byNumber_nodup keep repo) h.nodup_numbers).mpr fun n => ?_
  rw [Dict.mem_keys_iff, get_byNumber keep h.nodup h.named, isSome_map, h.files, mem_cons]

theorem head_nonneg : 0 ≤ numbers.head?.getD 0 := by
  cases hnumbers : numbers with
  | nil => exact le_rfl
  | cons p rest => exact (h.positive p (by rw [hnumbers]; exact mem_cons_self)).le

theorem le_head {n : ℤ} (hn : n ∈ numbers) : n ≤ numbers.head?.getD 0 := by
  have hdesc := h.descending
  cases hnumbers : numbers with
  | nil =>
    rw [hnumbers] at hn
    cases hn
  | cons p rest =>
    rw [hnumbers] at hn hdesc
    show n ≤ p
    rcases mem_cons.mp hn with rfl | hn
    · exact le_rfl
    · exact ((pairwise_cons.mp hdesc).1 n hn).le

/-- The greatest number. -/
theorem max_eq : ((keyFiles repo).map Prod.fst).max? = some (numbers.head?.getD 0) := by
  have hmem : ∀ n, n ∈ (keyFiles repo).map Prod.fst ↔ n = 0 ∨ n ∈ numbers := fun n =>
    (h.keys_perm Prod.fst).mem_iff.trans mem_cons
  refine max?_eq_some_iff.mpr ⟨(hmem _).mpr ?_, fun n hn => ?_⟩
  · cases hnumbers : numbers with
    | nil => exact Or.inl rfl
    | cons p rest => exact Or.inr mem_cons_self
  · rcases (hmem n).mp hn with rfl | hn
    · exact h.head_nonneg
    · exact h.le_head hn

end Holds

end KeyRepository

/-! ## 6. One rotation -/

theorem keysNodup_erase {ι ν : Type} [DecidableEq ι] {d : Dict ι ν} (h : d.KeysNodup) (k : ι) : (d.erase k).KeysNodup :=
  Nodup.sublist (List.Sublist.map _ filter_sublist) h

variable {repo : KeyRepository κ}

/-- **The loop removes the files of the numbers at the end.** -/
theorem purge_spec {files : Dict ℤ Str} {bound : ℤ} (hbound : 0 ≤ bound) {keys : List ℤ}
    (hkeys : keys.Nodup) (hfiles : ∀ n ∈ keys, files.get n = some (intStr n))
    (hrepo : ∀ n ∈ keys, (repo.get (intStr n)).isSome = true) (hnodup : repo.KeysNodup) :
    ∃ repo', purge files bound keys repo = some repo' ∧ repo'.KeysNodup ∧
      (∀ name, (repo'.get name).isSome = true → repo'.get name = repo.get name) ∧
      ∀ n, repo'.get (intStr n) = if n ∈ keys.take (keys.length - bound.toNat) then none else repo.get (intStr n) := by
  induction keys generalizing repo with
  | nil => exact ⟨repo, rfl, hnodup, fun _ _ => rfl, fun n => by rw [take_nil, if_neg not_mem_nil]⟩
  | cons index keys ih =>
    obtain ⟨hindex, hkeys⟩ := nodup_cons.mp hkeys
    unfold purge
    by_cases hlen : ((keys.length + 1 : ℕ) : ℤ) > bound
    · obtain ⟨key, hkey⟩ := isSome_iff_exists.mp (hrepo index mem_cons_self)
      have hrest : ∀ n ∈ keys, ((repo.erase (intStr index)).get (intStr n)).isSome = true := fun n hn => by
        have hne : intStr index ≠ intStr n := fun e => hindex (intStr_injective e ▸ hn)
        rw [Dict.get_erase, if_neg hne]
        exact hrepo n (mem_cons_of_mem _ hn)
      obtain ⟨repo', hrun, hnodup', hsame, hget⟩ :=
        ih hkeys (fun n hn => hfiles n (mem_cons_of_mem _ hn)) hrest (keysNodup_erase hnodup _)
      have htake : (index :: keys).length - bound.toNat = keys.length - bound.toNat + 1 := by
        rw [length_cons]
        omega
      refine ⟨repo', ?_, hnodup', fun name hname => ?_, fun n => ?_⟩
      · rw [if_pos hlen, hfiles index mem_cons_self, bind_some, KeyRepository.remove, hkey]
        exact hrun
      · have heq := hsame name hname
        rw [heq, Dict.get_erase] at hname
        rw [heq, Dict.get_erase]
        split_ifs at hname ⊢ with hne
        · cases hname
        · rfl
      · rw [htake, take_succ_cons, hget, Dict.get_erase]
        by_cases hn : n = index
        · subst hn
          rw [if_pos rfl, if_pos mem_cons_self, ite_self]
        · have hne : intStr index ≠ intStr n := fun e => hn (intStr_injective e).symm
          rw [if_neg hne]
          simp only [mem_cons, hn, false_or]
    · have htake : (index :: keys).length - bound.toNat = 0 := by
        rw [length_cons]
        omega
      refine ⟨repo, if_neg hlen, hnodup, fun _ _ => rfl, fun n => ?_⟩
      rw [htake, take_zero, if_neg not_mem_nil]

/-- What is not kept of a list, counted from its end. -/
theorem mem_take_reverse_sub {α : Type} (l : List α) (n : ℕ) (x : α) :
    x ∈ l.reverse.take (l.reverse.length - n) ↔ x ∈ l.drop n := by
  rw [take_reverse, mem_reverse, length_reverse]
  rcases Nat.le_total n l.length with hn | hn
  · rw [Nat.sub_sub_self hn]
  · rw [Nat.sub_eq_zero_of_le hn, Nat.sub_zero, drop_length, drop_eq_nil_of_le hn]

theorem mem_take_iff_notMem_drop {α : Type} {l : List α} (hl : l.Nodup) {n : ℕ} {x : α} :
    x ∈ l.take n ↔ x ∈ l ∧ x ∉ l.drop n := by
  have hsplit := hl
  rw [← take_append_drop n l, nodup_append] at hsplit
  refine ⟨fun hx => ⟨mem_of_mem_take hx, fun hx' => hsplit.2.2 x hx x hx' rfl⟩, fun ⟨hx, hx'⟩ => ?_⟩
  rw [← take_append_drop n l, mem_append] at hx
  exact hx.resolve_right hx'

/-- A descending list is what its numbers are sorted to. -/
theorem sortDesc_eq {l numbers : List ℤ} (hperm : l.Perm numbers) (hdesc : numbers.Pairwise fun a b => b < a) :
    sortDesc id l = numbers :=
  ((sortDesc_perm id l).trans hperm).eq_of_pairwise (fun _ _ _ _ h h' => le_antisymm h' h) (desc_sortDesc id l)
    (hdesc.imp fun h => h.le)

/-- The files of the next rotation, before the old ones are purged. -/
def promoted (repo : KeyRepository κ) (newPrimaryKey : ℤ) (staged newKey : κ) : KeyRepository κ :=
  createNewKey ((repo.erase ['0']).set (intStr newPrimaryKey) staged) newKey

theorem get_promoted (repo : KeyRepository κ) (p : ℤ) (staged newKey : κ) (name : Str) :
    (promoted repo p staged newKey).get name =
      if name = ['0'] then some newKey else if name = intStr p then some staged else repo.get name := by
  rw [promoted, createNewKey, Dict.get_set, Dict.get_set, Dict.get_erase]
  by_cases h0 : name = ['0']
  · rw [if_pos h0.symm, if_pos h0]
  · rw [if_neg (Ne.symm h0), if_neg h0]
    by_cases h1 : name = intStr p
    · rw [if_pos h1.symm, if_pos h1]
    · rw [if_neg (Ne.symm h1), if_neg h1, if_neg (Ne.symm h0)]

variable {numbers : List ℤ} {ring : KeyRing κ}

/-- **A rotation of the files is a rotation of the ring.** -/
theorem rotateKeys_holds (h : repo.Holds numbers ring)
    (maxActiveKeys : ℤ) (newKey : κ) :
    ∃ repo' numbers', rotateKeys maxActiveKeys repo newKey = some repo' ∧
      repo'.Holds numbers' (ring.rotate maxActiveKeys newKey) := by
  set p := numbers.head?.getD 0 + 1 with hp
  have hp0 : 0 < p := by
    have := h.head_nonneg
    omega
  have hpn : ∀ n ∈ numbers, n < p := fun n hn => by
    have := h.le_head hn
    omega
  set bound := (if maxActiveKeys < 1 then 1 else maxActiveKeys) - 1 with hbound
  have hbound0 : 0 ≤ bound := by
    rw [hbound]
    split_ifs <;> omega
  set files := ((keyFiles repo).erase 0).set p (intStr p) with hfilesdef
  have hget : ∀ n, (keyFiles repo).get n = (repo.get (intStr n)).map fun _ => intStr n :=
    KeyRepository.get_byNumber Prod.fst h.nodup h.named
  have hdesc : (p :: numbers).Pairwise fun a b => b < a := pairwise_cons.mpr ⟨hpn, h.descending⟩
  have hkeysNodup : (p :: numbers).Nodup := hdesc.imp fun hlt => ne_of_gt hlt
  have hfiles : ∀ n ∈ p :: numbers, files.get n = some (intStr n) := fun n hn => by
    rw [hfilesdef, Dict.get_set, Dict.get_erase]
    rcases mem_cons.mp hn with rfl | hn
    · rw [if_pos rfl]
    · obtain ⟨key, hkey⟩ := isSome_iff_exists.mp ((h.files n).mpr (Or.inr hn))
      rw [if_neg (ne_of_gt (hpn n hn)), if_neg (ne_of_lt (h.positive n hn)), hget, hkey]
      rfl
  have hsorted : sortDesc id (files.map Prod.fst) = p :: numbers := by
    refine sortDesc_eq ((perm_ext_iff_of_nodup ?_ hkeysNodup).mpr fun n => ?_) hdesc
    · exact (keysNodup_erase (KeyRepository.byNumber_nodup _ _) 0).set _ _
    · rw [hfilesdef, Dict.mem_keys_set, Dict.mem_keys_iff, Dict.get_erase, mem_cons]
      refine or_congr_right ?_
      by_cases hn : 0 = n
      · rw [if_pos hn]
        exact ⟨nofun, fun hmem => absurd (h.positive n hmem) (by omega)⟩
      · rw [if_neg hn, hget, isSome_map, h.files]
        exact or_iff_right (Ne.symm hn)
  have hgetRepo := get_promoted repo p ring.staged newKey
  have hpStr : intStr p ≠ ['0'] := fun e => (ne_of_gt hp0) (intStr_injective (e.trans intStr_zero.symm))
  have hnStr : ∀ n ∈ numbers, intStr n ≠ ['0'] ∧ intStr n ≠ intStr p := fun n hn =>
    ⟨fun e => ne_of_gt (h.positive n hn) (intStr_injective (e.trans intStr_zero.symm)),
      fun e => ne_of_lt (hpn n hn) (intStr_injective e)⟩
  have hpresent : ∀ n ∈ p :: numbers, ((promoted repo p ring.staged newKey).get (intStr n)).isSome = true := by
    intro n hn
    rcases mem_cons.mp hn with rfl | hn
    · rw [hgetRepo, if_neg hpStr, if_pos rfl]
      rfl
    · rw [hgetRepo, if_neg (hnStr n hn).1, if_neg (hnStr n hn).2]
      exact (h.files n).mpr (Or.inr hn)
  have hpromoted : (promoted repo p ring.staged newKey).KeysNodup := ((keysNodup_erase h.nodup _).set _ _).set _ _
  obtain ⟨repo', hpurge, hnodup', hsame, hget'⟩ := purge_spec hbound0 (nodup_reverse.mpr hkeysNodup)
    (fun n hn => hfiles n (mem_reverse.mp hn)) (fun n hn => hpresent n (mem_reverse.mp hn)) hpromoted
  have hget' : ∀ n, repo'.get (intStr n) =
      if n ∈ (p :: numbers).drop bound.toNat then none else (promoted repo p ring.staged newKey).get (intStr n) := by
    intro n
    rw [hget' n]
    exact if_congr (mem_take_reverse_sub _ _ _) rfl rfl
  have hzero : (0 : ℤ) ∉ (p :: numbers).drop bound.toNat := fun h0 => by
    rcases mem_cons.mp (mem_of_mem_drop h0) with h0 | h0
    · exact absurd h0 (ne_of_lt hp0)
    · exact absurd (h.positive 0 h0) (lt_irrefl 0)
  refine ⟨repo', (p :: numbers).take bound.toNat, ?_, hnodup', fun name n hname hint => ?_, ?_,
    hdesc.sublist (take_sublist _ _), fun n hn => ?_, fun n => ?_, ?_⟩
  · unfold rotateKeys
    dsimp only
    rw [h.max_eq, bind_some, ← hp, KeyRepository.rename, h.staged, map_some, bind_some, hget 0,
      intStr_zero, h.staged, map_some, bind_some, ← hfilesdef, hsorted, ← hbound]
    exact hpurge
  · have heq := hsame name hname
    rw [heq, hgetRepo] at hname
    by_cases h0 : name = ['0']
    · rw [h0, ← intStr_zero, pyInt_intStr] at hint
      rw [h0, ← intStr_zero, Option.some.inj hint]
    · by_cases h1 : name = intStr p
      · rw [h1, pyInt_intStr] at hint
        rw [h1, Option.some.inj hint]
      · rw [if_neg h0, if_neg h1] at hname
        exact h.named name n hname hint
  · rw [← intStr_zero, hget' 0, if_neg hzero, intStr_zero, hgetRepo, if_pos rfl]
    rfl
  · rcases mem_cons.mp (mem_of_mem_take hn) with rfl | hn
    · exact hp0
    · exact h.positive n hn
  · rw [hget' n, mem_take_iff_notMem_drop hkeysNodup]
    by_cases hdrop : n ∈ (p :: numbers).drop bound.toNat
    · rw [if_pos hdrop]
      refine ⟨nofun, fun hn => ?_⟩
      rcases hn with rfl | hn
      · exact absurd hdrop hzero
      · exact absurd hdrop hn.2
    · rw [if_neg hdrop]
      constructor
      · intro hsome
        rw [hgetRepo] at hsome
        by_cases h0 : n = 0
        · exact Or.inl h0
        · have h0' : intStr n ≠ ['0'] := fun e => h0 (intStr_injective (e.trans intStr_zero.symm))
          refine Or.inr ⟨?_, hdrop⟩
          rw [if_neg h0'] at hsome
          by_cases h1 : n = p
          · rw [h1]
            exact mem_cons_self
          · rw [if_neg fun e => h1 (intStr_injective e)] at hsome
            exact mem_cons_of_mem _ (((h.files n).mp hsome).resolve_left h0)
      · rintro (rfl | ⟨hn, -⟩)
        · rw [hgetRepo, if_pos intStr_zero]
          rfl
        · exact hpresent n hn
  · have hmap : ∀ n ∈ (p :: numbers).take bound.toNat,
        repo'.get (intStr n) = (promoted repo p ring.staged newKey).get (intStr n) := fun n hn => by
      rw [hget' n, if_neg ((mem_take_iff_notMem_drop hkeysNodup).mp hn).2]
    have hactive : (p :: numbers).map (fun n => (promoted repo p ring.staged newKey).get (intStr n)) =
        (ring.staged :: ring.active).map some := by
      rw [map_cons, map_cons, ← h.active, hgetRepo, if_neg hpStr, if_pos rfl]
      refine congrArg _ (map_congr_left fun n hn => ?_)
      rw [hgetRepo, if_neg (hnStr n hn).1, if_neg (hnStr n hn).2]
    rw [map_congr_left hmap, map_take, hactive, ← map_take]
    rfl

/-! ## 7. What is loaded -/

/-- The order in which a directory is listed does not matter. -/
theorem KeyRepository.Holds.perm {repo listed : KeyRepository κ}
    (h : repo.Holds numbers ring) (hperm : listed.Perm repo) : listed.Holds numbers ring := by
  have hnodup : listed.KeysNodup := (hperm.map Prod.fst).nodup_iff.mpr h.nodup
  have hget : ∀ name, listed.get name = repo.get name := fun name => Option.ext fun key => by
    rw [← hnodup.mem_iff, ← h.nodup.mem_iff, hperm.mem_iff]
  refine ⟨hnodup, fun name n hname => h.named name n (hget name ▸ hname), (hget _).trans h.staged, h.descending,
    h.positive, fun n => by rw [hget, h.files], ?_⟩
  rw [← h.active]
  exact map_congr_left fun n _ => hget _

/-- The active keys are loaded first, the staged one last. -/
theorem loadKeys_holds (h : repo.Holds numbers ring) :
    loadKeys repo = ring.active ++ [ring.staged] := by
  have hdesc : (numbers ++ [0]).Pairwise fun a b => b < a :=
    pairwise_append.mpr ⟨h.descending, pairwise_singleton _ _, fun a ha b hb => by
      rw [mem_singleton.mp hb]
      exact h.positive a ha⟩
  have hperm : ((repo.byNumber Prod.snd).map Prod.fst).Perm (numbers ++ [0]) :=
    (h.keys_perm Prod.snd).trans (perm_append_singleton 0 numbers).symm
  have hget : (repo.byNumber Prod.snd).get = fun n => repo.get (intStr n) := funext fun n => by
    rw [KeyRepository.get_byNumber Prod.snd h.nodup h.named, Option.map_id']
  have hactive : numbers.filterMap (fun n => repo.get (intStr n)) = ring.active := by
    have hmap : (numbers.map fun n => repo.get (intStr n)).filterMap id = (ring.active.map some).filterMap id := by
      rw [h.active]
    rw [filterMap_map, filterMap_map] at hmap
    exact hmap.trans (filterMap_some)
  unfold loadKeys
  dsimp only
  rw [sortDesc_eq hperm hdesc, hget, filterMap_append, hactive]
  refine congrArg _ ?_
  rw [filterMap_cons, intStr_zero, h.staged]
  rfl

theorem length_keyFiles (h : repo.Holds numbers ring) :
    (keyFiles repo).length = ring.active.length + 1 := by
  have hlen := (h.keys_perm Prod.fst).length_eq
  have hactive := congrArg List.length h.active
  rw [length_map, length_cons] at hlen
  rw [length_map, length_map] at hactive
  rw [keyFiles, hlen, hactive]

/-- The first key that is loaded is the file of the greatest number. -/
theorem head_loadKeys (h : repo.Holds numbers ring) :
    ∃ n key, ((keyFiles repo).map Prod.fst).max? = some n ∧ repo.get (intStr n) = some key ∧
      (loadKeys repo).head? = some key := by
  have hactive := h.active
  rw [h.max_eq, loadKeys_holds h]
  cases hnumbers : numbers with
  | nil =>
    rw [hnumbers] at hactive
    refine ⟨0, ring.staged, rfl, by rw [intStr_zero, h.staged], ?_⟩
    rw [map_eq_nil_iff.mp hactive.symm]
    rfl
  | cons p rest =>
    rw [hnumbers] at hactive
    cases hring : ring.active with
    | nil =>
      rw [hring] at hactive
      cases hactive
    | cons key keys =>
      rw [hring] at hactive
      exact ⟨p, key, rfl, (List.cons.inj hactive).1, rfl⟩

/-! ## 8. The run -/

/-- The ring after some rotations. -/
def ringAt (maxActiveKeys : ℤ) (start : KeyRepository κ) (keys : ℕ → κ) : ℕ → KeyRing κ
  | 0 => KeyRing.rotate maxActiveKeys ⟨keys 0, loadKeys start⟩ (keys 1)
  | i + 1 => (ringAt maxActiveKeys start keys i).rotate maxActiveKeys (keys (i + 2))

theorem map_some_filterMap {α β : Type} {f : α → Option β} {l : List α} (h : ∀ x ∈ l, (f x).isSome = true) :
    (l.filterMap f).map some = l.map f := by
  induction l with
  | nil => rfl
  | cons x l ih =>
    obtain ⟨y, hy⟩ := isSome_iff_exists.mp (h x mem_cons_self)
    rw [filterMap_cons_some hy, map_cons, map_cons, hy, ih fun z hz => h z (mem_cons_of_mem _ hz)]

namespace KeyRepository.Fresh

variable {start : KeyRepository κ} (h : start.Fresh)
include h

theorem get_zero : start.get ['0'] = none := by
  refine not_isSome_iff_eq_none.mp fun hsome => ?_
  exact absurd (h.named ['0'] 0 hsome (by rw [← intStr_zero, pyInt_intStr])).2 (lt_irrefl 0)

theorem get_key (n : ℤ) : (start.byNumber Prod.snd).get n = start.get (intStr n) := by
  rw [get_byNumber Prod.snd h.nodup (fun name n hname hint => (h.named name n hname hint).1), Option.map_id']

theorem mem_numbers (n : ℤ) :
    n ∈ sortDesc id ((start.byNumber Prod.snd).map Prod.fst) ↔ (start.get (intStr n)).isSome = true := by
  rw [mem_sortDesc, Dict.mem_keys_iff, h.get_key]

/-- The first key is staged in front of what is there. -/
theorem holds (firstKey : κ) :
    (createNewKey start firstKey).Holds (sortDesc id ((start.byNumber Prod.snd).map Prod.fst)) ⟨firstKey, loadKeys start⟩ := by
  have hget : ∀ name, (createNewKey start firstKey).get name =
      if ['0'] = name then some firstKey else start.get name := fun name => Dict.get_set _ _ _ _
  have hpos : ∀ n ∈ sortDesc id ((start.byNumber Prod.snd).map Prod.fst), 0 < n := fun n hn =>
    (h.named _ n ((h.mem_numbers n).mp hn) (pyInt_intStr n)).2
  have hne : ∀ n, n ≠ 0 → ['0'] ≠ intStr n := fun n hn e => hn (intStr_injective (e.symm.trans intStr_zero.symm))
  refine ⟨h.nodup.set _ _, fun name n hname hint => ?_, by rw [hget, if_pos rfl], ?_, hpos, fun n => ?_, ?_⟩
  · rw [hget] at hname
    split_ifs at hname with h0
    · rw [← h0, ← intStr_zero, pyInt_intStr] at hint
      rw [← h0, ← intStr_zero, Option.some.inj hint]
    · exact (h.named name n hname hint).1
  · have hnodup : (sortDesc id ((start.byNumber Prod.snd).map Prod.fst)).Nodup :=
      (sortDesc_perm id _).nodup_iff.mpr (byNumber_nodup _ _)
    exact List.Pairwise.imp₂ (fun _ _ hle hne => lt_of_le_of_ne hle (Ne.symm hne)) (desc_sortDesc id _) hnodup
  · rw [h.mem_numbers, hget]
    by_cases hn : n = 0
    · rw [hn, intStr_zero, if_pos rfl]
      exact ⟨fun _ => Or.inl rfl, fun _ => rfl⟩
    · rw [if_neg (hne n hn)]
      exact (or_iff_right hn).symm
  · have hkeys : ∀ n ∈ sortDesc id ((start.byNumber Prod.snd).map Prod.fst),
        ((start.byNumber Prod.snd).get n).isSome = true := fun n hn => by
      rw [h.get_key, ← h.mem_numbers]
      exact hn
    show _ = (filterMap _ _).map some
    rw [map_some_filterMap hkeys]
    refine map_congr_left fun n hn => ?_
    rw [hget, if_neg (hne n (ne_of_gt (hpos n hn))), h.get_key]

end KeyRepository.Fresh

theorem initializeKeyRepository_holds {start : KeyRepository κ} (h : start.Fresh) (maxActiveKeys : ℤ) (firstKey newKey : κ) :
    ∃ repo numbers, initializeKeyRepository maxActiveKeys start firstKey newKey = some repo ∧
      repo.Holds numbers (KeyRing.rotate maxActiveKeys ⟨firstKey, loadKeys start⟩ newKey) := by
  unfold initializeKeyRepository
  rw [h.get_zero, if_neg (by simp)]
  exact rotateKeys_holds (h.holds firstKey) maxActiveKeys newKey

section

variable {maxActiveKeys : ℤ} {start : KeyRepository κ} {keys : ℕ → κ}

/-- **Every repository of a run holds the ring of its state.** -/
theorem KeyRun.holds (hstart : start.Fresh) {i : ℕ} {repo : KeyRepository κ}
    (h : KeyRun maxActiveKeys start keys i repo) : ∃ numbers, repo.Holds numbers (ringAt maxActiveKeys start keys i) := by
  induction h with
  | bootstrap hrun hperm =>
    obtain ⟨repo', numbers, hrun', hholds⟩ := initializeKeyRepository_holds hstart maxActiveKeys (keys 0) (keys 1)
    rw [hrun] at hrun'
    obtain rfl := Option.some.inj hrun'
    exact ⟨numbers, hholds.perm hperm⟩
  | rotate _ hrun hperm ih =>
    obtain ⟨numbers, hholds⟩ := ih
    obtain ⟨repo', numbers', hrun', hholds'⟩ := rotateKeys_holds hholds maxActiveKeys (keys _)
    rw [hrun] at hrun'
    obtain rfl := Option.some.inj hrun'
    exact ⟨numbers', hholds'.perm hperm⟩

theorem ringAt_staged (i : ℕ) : (ringAt maxActiveKeys start keys i).staged = keys (i + 1) := by
  cases i <;> rfl

/-- The active keys are the last that have been staged. -/
theorem ringAt_active (hmax : 1 ≤ maxActiveKeys) (i : ℕ) :
    (ringAt maxActiveKeys start keys i).active =
      ((List.range (i + 1)).reverse.map keys ++ loadKeys start).take (maxActiveKeys - 1).toNat := by
  have hbound : (if maxActiveKeys < 1 then 1 else maxActiveKeys) = maxActiveKeys := if_neg (not_lt.mpr hmax)
  induction i with
  | zero =>
    unfold ringAt KeyRing.rotate
    rw [hbound]
    rfl
  | succ i ih =>
    have hstep : (ringAt maxActiveKeys start keys (i + 1)).active =
        (keys (i + 1) :: (ringAt maxActiveKeys start keys i).active).take (maxActiveKeys - 1).toNat := by
      rw [ringAt, KeyRing.rotate, hbound, ringAt_staged]
    have hrange : (List.range (i + 1 + 1)).reverse.map keys ++ loadKeys start =
        keys (i + 1) :: ((List.range (i + 1)).reverse.map keys ++ loadKeys start) := by
      rw [range_succ, reverse_append, reverse_singleton, singleton_append, map_cons,
        cons_append]
    rw [hstep, ih, hrange]
    cases (maxActiveKeys - 1).toNat with
    | zero => rfl
    | succ n => rw [take_succ_cons, take_succ_cons, take_take, Nat.min_eq_left (Nat.le_succ n)]

/-- A key that is staged, or that was primary not long ago, is loaded. -/
theorem mem_ringAt (hmax : 3 ≤ maxActiveKeys) {i j : ℕ} (hij : i ≤ j + 1)
    (hji : (j : ℤ) ≤ i + maxActiveKeys - 2) :
    keys i ∈ (ringAt maxActiveKeys start keys j).active ++ [(ringAt maxActiveKeys start keys j).staged] := by
  rcases Nat.lt_or_ge j i with h | h
  · obtain rfl : i = j + 1 := by omega
    rw [ringAt_staged]
    exact mem_append_right _ mem_cons_self
  · refine mem_append_left _ ?_
    rw [ringAt_active (by omega)]
    have hlen : j - i < (((List.range (j + 1)).reverse.map keys ++ loadKeys start).take (maxActiveKeys - 1).toNat).length := by
      rw [length_take, length_append, length_map, length_reverse, length_range]
      omega
    have hget : (((List.range (j + 1)).reverse.map keys ++ loadKeys start).take (maxActiveKeys - 1).toNat)[j - i] = keys i := by
      have hleft : j - i < ((List.range (j + 1)).reverse.map keys).length := by
        rw [length_map, length_reverse, length_range]
        omega
      rw [getElem_take, getElem_append_left hleft, getElem_map, getElem_reverse, getElem_range, length_range]
      exact congrArg keys (by omega)
    exact hget ▸ getElem_mem hlen

/-- The primary key. -/
theorem ringAt_primary (hmax : 3 ≤ maxActiveKeys) (i : ℕ) :
    ∃ rest, (ringAt maxActiveKeys start keys i).active = keys i :: rest := by
  rw [ringAt_active (by omega), range_succ, reverse_append, reverse_singleton, singleton_append,
    map_cons, cons_append]
  obtain ⟨n, hn⟩ : ∃ n, (maxActiveKeys - 1).toNat = n + 1 := ⟨(maxActiveKeys - 2).toNat, by omega⟩
  rw [hn, take_succ_cons]
  exact ⟨_, rfl⟩

/-- **The rotation window.** `encrypt` uses the first of its keys, and `decrypt` succeeds
    with each list of keys that has it. -/
theorem keyRun_window {ν π τ : Type} (hmax : 3 ≤ maxActiveKeys) (hstart : start.Fresh)
    {encrypt : List κ → ν → π → τ} {decrypt : List κ → τ → Option π}
    (hfernet : ∀ key rest nonce payload keys, key ∈ keys →
      decrypt keys (encrypt (key :: rest) nonce payload) = some payload) :
    (∃ repo, KeyRun maxActiveKeys start keys 0 repo) ∧
      ∀ i repo, KeyRun maxActiveKeys start keys i repo →
        (∃ repo', rotateKeys maxActiveKeys repo (keys (i + 2)) = some repo') ∧
        (repo.get ['0']).isSome = true ∧ ((keyFiles repo).length : ℤ) ≤ maxActiveKeys ∧
        (∃ n key, ((keyFiles repo).map Prod.fst).max? = some n ∧ repo.get (intStr n) = some key ∧
          (loadKeys repo).head? = some key) ∧
        (∀ j repo', KeyRun maxActiveKeys start keys j repo' → i ≤ j + 1 → (j : ℤ) ≤ i + maxActiveKeys - 2 →
          ∀ nonce payload, decrypt (loadKeys repo') (encrypt (loadKeys repo) nonce payload) = some payload) ∧
        ∀ repo', KeyRun maxActiveKeys start keys (i + 1) repo' → ∀ nonce payload,
          decrypt (loadKeys repo') (encrypt (loadKeys repo) nonce payload) = some payload ∧
            decrypt (loadKeys repo) (encrypt (loadKeys repo') nonce payload) = some payload := by
  have hwindow : ∀ i repo j repo', KeyRun maxActiveKeys start keys i repo → KeyRun maxActiveKeys start keys j repo' →
      i ≤ j + 1 → (j : ℤ) ≤ i + maxActiveKeys - 2 → ∀ nonce payload,
      decrypt (loadKeys repo') (encrypt (loadKeys repo) nonce payload) = some payload := by
    intro i repo j repo' hi hj hij hji nonce payload
    obtain ⟨_, hholds⟩ := hi.holds hstart
    obtain ⟨_, hholds'⟩ := hj.holds hstart
    obtain ⟨rest, hprimary⟩ := ringAt_primary hmax i
    rw [loadKeys_holds hholds, loadKeys_holds hholds', hprimary, cons_append]
    exact hfernet _ _ _ _ _ (mem_ringAt hmax hij hji)
  constructor
  · obtain ⟨repo, -, hrun, -⟩ := initializeKeyRepository_holds hstart maxActiveKeys (keys 0) (keys 1)
    exact ⟨repo, .bootstrap hrun (List.Perm.refl _)⟩
  · intro i repo hi
    obtain ⟨numbers, hholds⟩ := hi.holds hstart
    refine ⟨?_, by rw [hholds.staged]; rfl, ?_, head_loadKeys hholds, fun j repo' hj => hwindow i repo j repo' hi hj,
      fun repo' hj nonce payload => ⟨hwindow i repo (i + 1) repo' hi hj (by omega) (by omega) nonce payload,
        hwindow (i + 1) repo' i repo hj hi (by omega) (by omega) nonce payload⟩⟩
    · obtain ⟨repo', -, hrun, -⟩ := rotateKeys_holds hholds maxActiveKeys (keys (i + 2))
      exact ⟨repo', hrun⟩
    · rw [length_keyFiles hholds, ringAt_active (by omega), length_take]
      omega

/-- A token that carries the key it is made with. -/
def carryEncrypt (keys : List ℕ) (_ : Unit) (payload : String) : ℕ × String := (keys.headD 0, payload)

def carryDecrypt (keys : List ℕ) (token : ℕ × String) : Option String := if token.1 ∈ keys then some token.2 else none

/-- With three keys, in a directory that has another file. -/
theorem keyRun_window_readme :
    (∃ repo, KeyRun 3 [("README".toList, 100)] id 0 repo) ∧
      ∀ i repo, KeyRun 3 [("README".toList, 100)] id i repo →
        (∃ repo', rotateKeys 3 repo (i + 2) = some repo') ∧
        (repo.get ['0']).isSome = true ∧ ((keyFiles repo).length : ℤ) ≤ 3 ∧
        (∃ n key, ((keyFiles repo).map Prod.fst).max? = some n ∧ repo.get (intStr n) = some key ∧
          (loadKeys repo).head? = some key) ∧
        (∀ j repo', KeyRun 3 [("README".toList, 100)] id j repo' → i ≤ j + 1 → (j : ℤ) ≤ i + 3 - 2 →
          ∀ nonce payload, carryDecrypt (loadKeys repo') (carryEncrypt (loadKeys repo) nonce payload) = some payload) ∧
        ∀ repo', KeyRun 3 [("README".toList, 100)] id (i + 1) repo' → ∀ nonce payload,
          carryDecrypt (loadKeys repo') (carryEncrypt (loadKeys repo) nonce payload) = some payload ∧
            carryDecrypt (loadKeys repo) (carryEncrypt (loadKeys repo') nonce payload) = some payload := by
  have hstart : KeyRepository.Fresh [("README".toList, 100)] := by
    refine ⟨nodup_singleton _, fun name n hname hint => ?_⟩
    have hreadme : name = "README".toList := by
      rw [Dict.get_cons] at hname
      split_ifs at hname with h
      · exact h.symm
      · cases hname
    have hnone : pyInt "README".toList = none := by decide
    rw [hreadme, hnone] at hint
    cases hint
  exact keyRun_window (le_refl 3) hstart fun _ _ _ _ _ h => if_pos h

end

end Mitaka.Keystone
