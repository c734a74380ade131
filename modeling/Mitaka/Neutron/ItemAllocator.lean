/-
  Subject: neutron/agent/l3/item_allocator.py.

  The pool is a set, of which `pop` takes any element: an action to allocate names the one
  that is taken where one is. The state file is a text, written as a whole and read back
  line by line when the allocator starts again; texts are those of Python 2.

  Records are written with a comma whatever the delimiter is, and are stripped when they
  are read. With the comma as delimiter, keys that do not start with a blank and items that
  are one word, no run shares or loses an item (**`allocator_ok`**).
-/
import Mitaka.Keystone.Text
import Mitaka.Lib.Dict
import Mitaka.Lib.Occurrence
import Mitaka.Lib.Run

namespace Mitaka.Neutron.ItemAllocator

open List

open Keystone (Str strip isSpace)

/-! ## 1. The allocator -/

/-- What an allocator is made with: `ItemClass`, which may raise, `str` of the items, and the delimiter. -/
structure Config (I : Type) where
  itemClass : Str → Option I
  str : I → Str
  delimiter : Str

/-- The allocator and its state file; there may be no file. -/
structure State (I : Type) where
  allocations : Dict Str I
  remembered : Dict Str I
  pool : Finset I
  file : Option Str
deriving DecidableEq

/-- What `allocate` comes to: an item, one of the pool, or an exception. -/
inductive Allocation (I : Type)
  | returns (s : State I) (item : I)
  | pops (pool : Finset I) (next : I → State I)
  | raises (s : State I)

/-- `text.split(delimiter)`; the pieces are at most one more than the characters. -/
def split (delimiter : Str) : ℕ → Str → List Str
  | 0, s => [s]
  | n + 1, s =>
    match find delimiter s with
    | none => [s]
    | some p => s.take p :: split delimiter n (s.drop (p + delimiter.length))

/-- `readlines`, behind the characters of a line that were read. -/
def readLinesFrom : Str → Str → List Str
  | line, [] => if line = [] then [] else [line]
  | line, c :: s => if c = '\n' then (line ++ [c]) :: readLinesFrom [] s else readLinesFrom (line ++ [c]) s

section

variable {I : Type} [DecidableEq I] (conf : Config I)

omit [DecidableEq I] in
/-- A record of the file. -/
def record (e : Str × I) : Str := e.1 ++ ',' :: conf.str e.2 ++ ['\n']

/-- `_write_allocations`: what the file holds. -/
def writeAllocations (allocations remembered : Dict Str I) : Str :=
  (allocations.map (record conf) ++ remembered.map (record conf)).flatten

/-- The key and the item of a line. -/
def readRecord (line : Str) : Option (Str × I) :=
  let line := strip isSpace line
  match split conf.delimiter line.length line with
  | [key, savedValue] => (conf.itemClass savedValue).map fun item => (key, item)
  | _ => none

/-- `__init__`, with the pool; none is an exception. -/
def start (pool : Finset I) (file : Option Str) : Option (State I) :=
  ((readLinesFrom [] (file.getD [])).mapM (readRecord conf)).map fun records =>
    let remembered : Dict Str I := records.foldl (fun d e => d.set e.1 e.2) []
    ⟨[], remembered, pool \ (remembered.map Prod.snd).toFinset, file⟩

/-- `allocate`. -/
def allocate (s : State I) (key : Str) : Allocation I :=
  match s.allocations.get key with
  | some item => .returns s item
  | none =>
    match s.remembered.get key with
    | some item =>
      .returns { s with allocations := s.allocations.set key item, remembered := s.remembered.erase key } item
    | none =>
      -- the remembered entries go when the pool is empty
      let pool := if s.pool = ∅ then (s.remembered.map Prod.snd).toFinset else s.pool
      let remembered := if s.pool = ∅ then [] else s.remembered
      if pool = ∅ then .raises { s with remembered := remembered, pool := pool }
      else .pops pool fun item =>
        let allocations := s.allocations.set key item
        ⟨allocations, remembered, pool.erase item, some (writeAllocations conf allocations remembered)⟩

/-- `release`; none is the exception for a key without an item. -/
def release (s : State I) (key : Str) : Option (State I) :=
  (s.allocations.get key).map fun item =>
    let allocations := s.allocations.erase key
    ⟨allocations, s.remembered, insert item s.pool, some (writeAllocations conf allocations s.remembered)⟩

/-- What is done with the allocator; `item` is the one that the pool gives. -/
inductive Action (I : Type)
  | allocate (key : Str) (item : I)
  | release (key : Str)
  | restart

/-- One action; a restart reads the file with the original pool. -/
def step (original : Finset I) (s : State I) : Action I → Option (State I)
  | .allocate key item =>
    match allocate conf s key with
    | .returns s' _ => some s'
    | .pops pool next => if item ∈ pool then some (next item) else none
    | .raises s' => some s'
  | .release key => release conf s key
  | .restart => start conf original s.file

/-! ## 2. What is asked of it -/

omit [DecidableEq I] in
/-- The entries of the allocator. -/
def State.entries (s : State I) : List (Str × I) := s.allocations ++ s.remembered

omit [DecidableEq I] in
/-- The key has the item, allocated or remembered. -/
def State.Owns (s : State I) (key : Str) (item : I) : Prop :=
  s.allocations.get key = some item ∨ s.remembered.get key = some item

omit [DecidableEq I] in
/-- An allocation that finds the pool empty. -/
def FindsEmpty (s : State I) : Action I → Prop
  | .allocate key _ => s.allocations.get key = none ∧ s.remembered.get key = none ∧ s.pool = ∅
  | _ => False

omit [DecidableEq I] in
/-- A key that is read as it is written: without commas and newlines, and without a blank in front. -/
structure KeyOk (key : Str) : Prop where
  comma : ',' ∉ key
  newline : '\n' ∉ key
  front : ∀ c ∈ key.head?, isSpace c = false

omit [DecidableEq I] in
/-- Actions on such keys. -/
def ActionOk (_ : State I) : Action I → Prop
  | .allocate key _ => KeyOk key
  | _ => True

/-- The delimiter is the one that is written, and each item is read as it is written. -/
structure ConfigOk (original : Finset I) : Prop where
  delimiter : conf.delimiter = [',']
  read : ∀ item ∈ original, conf.itemClass (conf.str item) = some item
  comma : ∀ item ∈ original, ',' ∉ conf.str item
  newline : ∀ item ∈ original, '\n' ∉ conf.str item
  back : ∀ item ∈ original, ∀ c ∈ (conf.str item).getLast?, isSpace c = false

/-- What is asked in a state: no item is shared or lost, the allocator can be started again, a key keeps its item in
every run that does not release it and finds no empty pool, and gets it when it asks; an allocation fails when all items
are allocated, and a new one only then. -/
structure AllocatorOk (original : Finset I) (s : State I) : Prop where
  apart : (s.entries.map Prod.snd).Nodup
  pool : ∀ item ∈ s.pool, item ∉ s.entries.map Prod.snd
  all : ∀ item, item ∈ original ↔ item ∈ s.pool ∨ item ∈ s.entries.map Prod.snd
  restarts : (step conf original s .restart).isSome
  returns : ∀ key item, s.Owns key item → ∃ s', allocate conf s key = .returns s' item
  keeps : ∀ key item t, s.Owns key item →
    Reach (step conf original) (fun u a => ActionOk u a ∧ a ≠ .release key ∧ ¬ FindsEmpty u a) s t → t.Owns key item
  fails : ∀ key, s.allocations.get key = none ∨ (∃ item ∈ original, item ∉ s.allocations.map Prod.snd) →
    ((∃ s', allocate conf s key = .raises s') ↔ ∀ item ∈ original, item ∈ s.allocations.map Prod.snd)

/-! ## 3. The file -/

theorem readLinesFrom_append {text : Str} (line rest : Str) (h : '\n' ∉ text) :
    readLinesFrom line (text ++ '\n' :: rest) = (line ++ text ++ ['\n']) :: readLinesFrom [] rest := by
  induction text generalizing line with
  | nil =>
    rw [nil_append, readLinesFrom, if_pos rfl, append_nil]
  | cons c text ih =>
    rw [mem_cons, not_or] at h
    rw [cons_append, readLinesFrom, if_neg (Ne.symm h.1), ih _ h.2, append_assoc line, singleton_append]

theorem find_comma {key : Str} (h : ',' ∉ key) (text : Str) : find [','] (key ++ ',' :: text) = some key.length := by
  induction key with
  | nil =>
    rw [nil_append, find, if_pos (cons_prefix_cons.mpr ⟨rfl, nil_prefix⟩)]
    rfl
  | cons c key ih =>
    rw [mem_cons, not_or] at h
    have hnot : ¬ [','] <+: c :: (key ++ ',' :: text) := fun hp => h.1 (cons_prefix_cons.mp hp).1
    rw [cons_append, find, if_neg hnot, ih h.2]
    rfl

theorem find_comma_none {text : Str} (h : ',' ∉ text) : find [','] text = none := by
  induction text with
  | nil => rfl
  | cons c text ih =>
    rw [mem_cons, not_or] at h
    have hnot : ¬ [','] <+: c :: text := fun hp => h.1 (cons_prefix_cons.mp hp).1
    rw [find, if_neg hnot, ih h.2]
    rfl

theorem split_comma {key value : Str} (hkey : ',' ∉ key) (hvalue : ',' ∉ value) (n : ℕ) :
    split [','] (n + 1) (key ++ ',' :: value) = [key, value] := by
  have hdrop : (key ++ ',' :: value).drop (key.length + [','].length) = value := by
    rw [length_singleton, ← drop_drop, drop_left]
    rfl
  rw [split, find_comma hkey]
  simp only [take_left, hdrop]
  cases n with
  | zero => rfl
  | succ n => rw [split, find_comma_none hvalue]

theorem dropWhile_of_head {p : Char → Bool} {s : Str} (h : ∀ c ∈ s.head?, p c = false) : s.dropWhile p = s := by
  cases s with
  | nil => rfl
  | cons c s => rw [dropWhile_cons_of_neg (by rw [h c rfl]; exact Bool.false_ne_true)]

/-- A line that starts and ends with no blank, and its newline. -/
theorem strip_line {s : Str} (hfront : ∀ c ∈ s.head?, isSpace c = false) (hback : ∀ c ∈ s.getLast?, isSpace c = false)
    (hne : s ≠ []) : strip isSpace (s ++ ['\n']) = s := by
  have hhead : ∀ c ∈ (s ++ ['\n']).head?, isSpace c = false := by
    rw [head?_append_of_ne_nil _ hne]
    exact hfront
  have hnewline : isSpace '\n' = true := by decide
  rw [strip, dropWhile_of_head hhead, reverse_append, reverse_singleton, singleton_append,
    dropWhile_cons_of_pos hnewline, dropWhile_of_head, reverse_reverse]
  rw [head?_reverse]
  exact hback

section

variable {conf} {original : Finset I}

omit [DecidableEq I] in
/-- **A record is read back.** -/
theorem readRecord_record (hconf : ConfigOk conf original) {e : Str × I} (hkey : KeyOk e.1) (he : e.2 ∈ original) :
    readRecord conf (record conf e) = some e := by
  have hfront : ∀ c ∈ (e.1 ++ ',' :: conf.str e.2).head?, isSpace c = false := by
    intro c hc
    cases hk : e.1 with
    | nil =>
      rw [hk, nil_append, head?_cons] at hc
      obtain rfl := Option.some.inj hc
      decide
    | cons d key =>
      rw [hk] at hc
      exact hkey.front c (by rw [hk]; exact hc)
  have hback : ∀ c ∈ (e.1 ++ ',' :: conf.str e.2).getLast?, isSpace c = false := by
    intro c hc
    rw [getLast?_append_of_ne_nil _ (cons_ne_nil _ _)] at hc
    cases hs : conf.str e.2 with
    | nil =>
      rw [hs] at hc
      obtain rfl := Option.some.inj hc
      decide
    | cons d text =>
      rw [hs, getLast?_cons_cons] at hc
      exact hconf.back e.2 he c (by rw [hs]; exact hc)
  have hstrip : strip isSpace (record conf e) = e.1 ++ ',' :: conf.str e.2 := strip_line hfront hback (by simp)
  have hlength : (e.1 ++ ',' :: conf.str e.2).length = e.1.length + (conf.str e.2).length + 1 := by
    rw [length_append, length_cons]
    omega
  unfold readRecord
  rw [hstrip]
  simp only [hlength, hconf.delimiter]
  rw [split_comma hkey.comma (hconf.comma e.2 he)]
  simp only
  rw [hconf.read e.2 he]
  rfl

variable {es : List (Str × I)}

omit [DecidableEq I] in
/-- **The lines of a file** are the records that were written. -/
theorem readLinesFrom_records (hconf : ConfigOk conf original) (hkeys : ∀ e ∈ es, KeyOk e.1)
    (hitems : ∀ e ∈ es, e.2 ∈ original) : readLinesFrom [] (es.map (record conf)).flatten = es.map (record conf) := by
  induction es with
  | nil => rfl
  | cons e es ih =>
    have hnot : '\n' ∉ e.1 ++ ',' :: conf.str e.2 := by
      rw [mem_append, mem_cons]
      rintro (h | h | h)
      · exact (hkeys e mem_cons_self).newline h
      · exact absurd h (by decide)
      · exact hconf.newline e.2 (hitems e mem_cons_self) h
    rw [map_cons, flatten_cons, record, append_assoc, singleton_append, readLinesFrom_append [] _ hnot,
      nil_append, ih (fun e he => hkeys e (mem_cons_of_mem _ he)) fun e he => hitems e (mem_cons_of_mem _ he)]

omit [DecidableEq I] in
theorem mapM_readRecord (hconf : ConfigOk conf original) (hkeys : ∀ e ∈ es, KeyOk e.1)
    (hitems : ∀ e ∈ es, e.2 ∈ original) : (es.map (record conf)).mapM (readRecord conf) = some es := by
  induction es with
  | nil => rfl
  | cons e es ih =>
    rw [map_cons, mapM_cons, readRecord_record hconf (hkeys e mem_cons_self) (hitems e mem_cons_self),
      ih (fun e he => hkeys e (mem_cons_of_mem _ he)) fun e he => hitems e (mem_cons_of_mem _ he)]
    rfl

/-- **A start from the file that was written**: the entries are remembered. -/
theorem start_records (hconf : ConfigOk conf original) (hnodup : Dict.KeysNodup es)
    (hkeys : ∀ e ∈ es, KeyOk e.1) (hitems : ∀ e ∈ es, e.2 ∈ original) {file : Option Str}
    (hfile : file.getD [] = (es.map (record conf)).flatten) :
    start conf original file = some ⟨[], es, original \ (es.map Prod.snd).toFinset, file⟩ := by
  have hset : es.foldl (fun d e => Dict.set d e.1 e.2) ([] : Dict Str I) = es := Dict.foldl_set (d := []) hnodup
  unfold start
  rw [hfile, readLinesFrom_records hconf hkeys hitems, mapM_readRecord hconf hkeys hitems]
  simp only [Option.map_some, hset]

/-! ## 4. What an action does -/

/-- Entries and pool hold the original items, each one once. -/
structure Shares (original : Finset I) (es : List (Str × I)) (free : Finset I) : Prop where
  keys : Dict.KeysNodup es
  apart : (es.map Prod.snd).Nodup
  pool : ∀ item ∈ free, item ∉ es.map Prod.snd
  all : ∀ item, item ∈ original ↔ item ∈ free ∨ item ∈ es.map Prod.snd

section

variable {es es' : List (Str × I)} {pool : Finset I} {key : Str} {item : I}

omit [DecidableEq I] in
theorem Shares.perm (h : Shares original es pool) (hp : es.Perm es') : Shares original es' pool := by
  have hitems (i : I) : i ∈ es.map Prod.snd ↔ i ∈ es'.map Prod.snd := (hp.map Prod.snd).mem_iff
  refine ⟨(hp.map Prod.fst).nodup_iff.mp h.keys, (hp.map Prod.snd).nodup_iff.mp h.apart, fun i hi => ?_, fun i => ?_⟩
  · rw [← hitems]
    exact h.pool i hi
  · rw [← hitems]
    exact h.all i

theorem Shares.give (h : Shares original es pool) (hkey : key ∉ es.map Prod.fst) (hitem : item ∈ pool) :
    Shares original ((key, item) :: es) (pool.erase item) where
  keys := nodup_cons.mpr ⟨hkey, h.keys⟩
  apart := nodup_cons.mpr ⟨h.pool item hitem, h.apart⟩
  pool i hi := by
    obtain ⟨hne, hi⟩ := Finset.mem_erase.mp hi
    rw [map_cons, mem_cons, not_or]
    exact ⟨hne, h.pool i hi⟩
  all i := by
    rw [h.all, Finset.mem_erase, map_cons, mem_cons]
    by_cases hi : i = item
    · rw [hi]
      exact iff_of_true (Or.inl hitem) (Or.inr (Or.inl rfl))
    · simp only [hi, ne_eq, not_false_eq_true, true_and, false_or]

theorem Shares.free (h : Shares original ((key, item) :: es) pool) : Shares original es (insert item pool) where
  keys := (nodup_cons.mp h.keys).2
  apart := (nodup_cons.mp h.apart).2
  pool i hi := by
    rcases Finset.mem_insert.mp hi with rfl | hi
    · exact (nodup_cons.mp h.apart).1
    · exact fun hmem => h.pool i hi (mem_cons_of_mem _ hmem)
  all i := by
    rw [h.all, Finset.mem_insert, map_cons, mem_cons, ← or_assoc, or_comm (a := i ∈ pool)]

theorem Shares.dump (h : Shares original (es ++ es') ∅) : Shares original es (es'.map Prod.snd).toFinset := by
  have hkeys := h.keys
  have hitems := h.apart
  rw [Dict.KeysNodup, map_append] at hkeys
  rw [map_append] at hitems
  obtain ⟨hkeys, -, -⟩ := nodup_append.mp hkeys
  obtain ⟨hleft, -, hne⟩ := nodup_append.mp hitems
  refine ⟨hkeys, hleft, fun i hi hmem => hne i hmem i (List.mem_toFinset.mp hi) rfl, fun i => ?_⟩
  rw [h.all, List.mem_toFinset, map_append, mem_append, or_comm (a := i ∈ es.map Prod.snd)]
  simp only [Finset.notMem_empty, false_or]

end

variable (conf original) in
/-- What holds in every state: the file has the entries, in some order. -/
structure Inv (s : State I) : Prop where
  shares : Shares original s.entries s.pool
  keyOk : ∀ e ∈ s.entries, KeyOk e.1
  file : ∃ es : List (Str × I), es.Perm s.entries ∧ s.file.getD [] = (es.map (record conf)).flatten

variable (conf) in
/-- What an action does to entries, pool and file: nothing, or an item is given, given when the remembered entries are
dumped, or freed. -/
inductive Effect (s s' : State I) : Action I → Prop
  | stays (a : Action I) (entries : s'.entries.Perm s.entries) (pool : s'.pool = s.pool) (file : s'.file = s.file) :
    Effect s s' a
  | gives (key : Str) (item : I) (fresh : key ∉ s.entries.map Prod.fst) (free : item ∈ s.pool)
    (entries : s'.entries.Perm ((key, item) :: s.entries)) (pool : s'.pool = s.pool.erase item)
    (file : s'.file = some (writeAllocations conf s'.allocations s'.remembered)) : Effect s s' (.allocate key item)
  | dumps (key : Str) (item : I) (empty : FindsEmpty s (.allocate key item))
    (free : item ∈ (s.remembered.map Prod.snd).toFinset) (entries : s'.entries.Perm ((key, item) :: s.allocations))
    (pool : s'.pool = (s.remembered.map Prod.snd).toFinset.erase item)
    (file : s'.file = some (writeAllocations conf s'.allocations s'.remembered)) : Effect s s' (.allocate key item)
  | frees (key : Str) (item : I) (entries : s.entries.Perm ((key, item) :: s'.entries))
    (pool : s'.pool = insert item s.pool)
    (file : s'.file = some (writeAllocations conf s'.allocations s'.remembered)) : Effect s s' (.release key)

variable {s : State I} {key : Str} {item : I}

omit [DecidableEq I] in
theorem Inv.owns_iff (h : Inv conf original s) :
    s.Owns key item ↔ (key, item) ∈ s.entries := by
  have hkeys := h.shares.keys
  rw [State.entries, Dict.KeysNodup, map_append] at hkeys
  obtain ⟨hleft, hright, -⟩ := nodup_append.mp hkeys
  rw [State.Owns, ← Dict.KeysNodup.mem_iff hleft, ← Dict.KeysNodup.mem_iff hright, State.entries, mem_append]

theorem Inv.start (hconf : ConfigOk conf original) (h : Inv conf original s) :
    ∃ es : List (Str × I), es.Perm s.entries ∧ ItemAllocator.start conf original s.file = some ⟨[], es, s.pool, s.file⟩ := by
  obtain ⟨es, hperm, hfile⟩ := h.file
  have hshares := h.shares.perm hperm.symm
  have hitems (e : Str × I) (he : e ∈ es) : e.2 ∈ original := (hshares.all e.2).mpr (Or.inr (List.mem_map_of_mem he))
  have hpool : original \ (es.map Prod.snd).toFinset = s.pool := by
    ext i
    rw [Finset.mem_sdiff, List.mem_toFinset, hshares.all]
    exact ⟨fun hi => hi.1.resolve_right hi.2, fun hi => ⟨Or.inl hi, hshares.pool i hi⟩⟩
  refine ⟨es, hperm, ?_⟩
  rw [start_records hconf hshares.keys (fun e he => h.keyOk e (hperm.mem_iff.mp he)) hitems hfile, hpool]

variable {s s' : State I}

theorem allocate_effect (hkeys : Dict.KeysNodup s.entries)
    (h : step conf original s (.allocate key item) = some s') : Effect conf s s' (.allocate key item) := by
  rw [State.entries, Dict.KeysNodup, map_append] at hkeys
  obtain ⟨-, hremembered, hne⟩ := nodup_append.mp hkeys
  rw [step, allocate] at h
  cases hallocated : s.allocations.get key with
  | some i =>
    rw [hallocated] at h
    obtain rfl := Option.some.inj h
    exact .stays _ (List.Perm.refl _) rfl rfl
  | none =>
    have hfresh : key ∉ s.allocations.map Prod.fst := fun hmem => by
      rw [Dict.mem_keys_iff, hallocated] at hmem
      cases hmem
    rw [hallocated] at h
    cases hkept : s.remembered.get key with
    | some i =>
      rw [hkept] at h
      obtain rfl := Option.some.inj h
      refine .stays _ ?_ rfl rfl
      simp only [State.entries]
      rw [Dict.set_of_notMem hfresh, append_assoc, singleton_append]
      exact (Dict.perm_cons_erase hremembered hkept).symm.append_left _
    | none =>
      have hnone : key ∉ s.remembered.map Prod.fst := fun hmem => by
        rw [Dict.mem_keys_iff, hkept] at hmem
        cases hmem
      rw [hkept] at h
      simp only at h
      by_cases hempty : s.pool = ∅
      · simp only [if_pos hempty] at h
        by_cases hdumped : (s.remembered.map Prod.snd).toFinset = ∅
        · simp only [if_pos hdumped] at h
          obtain rfl := Option.some.inj h
          have hnil : s.remembered = [] := map_eq_nil_iff.mp (toFinset_eq_empty_iff _ |>.mp hdumped)
          refine .stays _ ?_ (hdumped.trans hempty.symm) rfl
          rw [State.entries, State.entries, hnil]
        · simp only [if_neg hdumped] at h
          split at h
          case isTrue hitem =>
            obtain rfl := Option.some.inj h
            refine .dumps key item ⟨hallocated, hkept, hempty⟩ hitem ?_ rfl rfl
            simp only [State.entries]
            rw [Dict.set_of_notMem hfresh, append_nil]
            exact perm_append_singleton _ _
          case isFalse => cases h
      · simp only [if_neg hempty] at h
        split at h
        case isTrue hitem =>
          obtain rfl := Option.some.inj h
          refine .gives key item ?_ hitem ?_ rfl rfl
          · rw [State.entries, map_append, mem_append, not_or]
            exact ⟨hfresh, hnone⟩
          · simp only [State.entries]
            rw [Dict.set_of_notMem hfresh, append_assoc, singleton_append]
            exact perm_middle
        case isFalse => cases h

theorem release_effect (hkeys : Dict.KeysNodup s.entries)
    (h : step conf original s (.release key) = some s') : Effect conf s s' (.release key) := by
  rw [State.entries, Dict.KeysNodup, map_append] at hkeys
  obtain ⟨item, hitem, rfl⟩ := Option.map_eq_some_iff.mp h
  refine .frees key item ?_ rfl rfl
  exact (Dict.perm_cons_erase (nodup_append.mp hkeys).1 hitem).append_right s.remembered

/-- **What each action does.** -/
theorem step_effect {a : Action I} (hconf : ConfigOk conf original) (h : Inv conf original s)
    (hstep : step conf original s a = some s') : Effect conf s s' a := by
  cases a with
  | allocate key item => exact allocate_effect h.shares.keys hstep
  | release key => exact release_effect h.shares.keys hstep
  | restart =>
    obtain ⟨es, hperm, hstart⟩ := h.start hconf
    rw [step, hstart] at hstep
    obtain rfl := Option.some.inj hstep
    exact .stays _ hperm rfl rfl

omit [DecidableEq I] in
/-- What is written is the entries. -/
theorem file_of_write (h : s.file = some (writeAllocations conf s.allocations s.remembered)) :
    ∃ es : List (Str × I), es.Perm s.entries ∧ s.file.getD [] = (es.map (record conf)).flatten := by
  refine ⟨s.entries, List.Perm.refl _, ?_⟩
  rw [h, Option.getD_some, writeAllocations, State.entries, map_append]

/-- **Every action keeps the invariant.** -/
theorem Inv.step {a : Action I} (hconf : ConfigOk conf original) (h : Inv conf original s)
    (ha : ActionOk s a) (hstep : step conf original s a = some s') : Inv conf original s' := by
  cases step_effect hconf h hstep with
  | stays a entries pool file =>
    obtain ⟨es, hperm, hfile⟩ := h.file
    refine ⟨pool ▸ h.shares.perm entries.symm, fun e he => h.keyOk e (entries.mem_iff.mp he),
      es, hperm.trans entries.symm, ?_⟩
    rw [file, hfile]
  | gives key item fresh free entries pool file =>
    refine ⟨pool ▸ (h.shares.give fresh free).perm entries.symm, fun e he => ?_, file_of_write file⟩
    rcases mem_cons.mp (entries.mem_iff.mp he) with rfl | he
    · exact ha
    · exact h.keyOk e he
  | dumps key item empty free entries pool file =>
    obtain ⟨hnone, -, hempty⟩ := empty
    have hfresh : key ∉ s.allocations.map Prod.fst := fun hmem => by
      rw [Dict.mem_keys_iff, hnone] at hmem
      cases hmem
    have hdump : Shares original s.allocations (s.remembered.map Prod.snd).toFinset := Shares.dump (hempty ▸ h.shares)
    refine ⟨pool ▸ (hdump.give hfresh free).perm entries.symm, fun e he => ?_, file_of_write file⟩
    rcases mem_cons.mp (entries.mem_iff.mp he) with rfl | he
    · exact ha
    · exact h.keyOk e (mem_append_left _ he)
  | frees key item entries pool file =>
    exact ⟨pool ▸ (h.shares.perm entries).free,
      fun e he => h.keyOk e (entries.mem_iff.mpr (mem_cons_of_mem _ he)), file_of_write file⟩

/-- **A key keeps its item** in an action that does not release it and finds no empty pool. -/
theorem Inv.keeps {a : Action I} (hconf : ConfigOk conf original)
    (h : Inv conf original s) (hstep : ItemAllocator.step conf original s a = some s') (hrelease : a ≠ .release key)
    (hfinds : ¬ FindsEmpty s a) (howns : (key, item) ∈ s.entries) : (key, item) ∈ s'.entries := by
  cases step_effect hconf h hstep with
  | stays a entries => exact entries.mem_iff.mpr howns
  | gives k i fresh free entries => exact entries.mem_iff.mpr (mem_cons_of_mem _ howns)
  | dumps k i empty => exact absurd empty hfinds
  | frees k i entries =>
    rcases mem_cons.mp (entries.mem_iff.mp howns) with heq | hmem
    · exact absurd (congrArg Action.release (congrArg Prod.fst heq).symm) hrelease
    · exact hmem

omit [DecidableEq I] in
theorem inv_start : Inv conf original ⟨[], [], original, none⟩ where
  shares := ⟨nodup_nil, nodup_nil, fun _ _ => not_mem_nil, fun i => by simp [State.entries]⟩
  keyOk := nofun
  file := ⟨[], List.Perm.refl _, rfl⟩

/-! ## 5. All runs -/

theorem Inv.owns_run {s t : State I} (hconf : ConfigOk conf original) (h : Inv conf original s)
    (howns : s.Owns key item)
    (hrun : Reach (ItemAllocator.step conf original) (fun u a => ActionOk u a ∧ a ≠ .release key ∧ ¬ FindsEmpty u a) s t) :
    t.Owns key item := by
  have hkept : Inv conf original t ∧ (key, item) ∈ t.entries := by
    refine hrun.invariant (I := fun u => Inv conf original u ∧ (key, item) ∈ u.entries) ⟨h, h.owns_iff.mp howns⟩ ?_
    rintro u a v ⟨hu, hmem⟩ ⟨hkey, hrelease, hfinds⟩ hstep
    exact ⟨hu.step hconf hkey hstep, hu.keeps hconf hstep hrelease hfinds hmem⟩
  exact hkept.1.owns_iff.mpr hkept.2

omit [DecidableEq I] in
/-- An item that is allocated is not remembered. -/
theorem Inv.remembered_of_all (h : Inv conf original s)
    (hall : ∀ item ∈ original, item ∈ s.allocations.map Prod.snd) : s.pool = ∅ ∧ s.remembered = [] := by
  have happart := h.shares.apart
  rw [State.entries, map_append] at happart
  constructor
  · refine Finset.eq_empty_of_forall_notMem fun i hi => h.shares.pool i hi ?_
    rw [State.entries, map_append]
    exact mem_append_left _ (hall i ((h.shares.all i).mpr (Or.inl hi)))
  · refine eq_nil_iff_forall_not_mem.mpr fun e he => ?_
    have hmem : e.2 ∈ original :=
      (h.shares.all e.2).mpr (Or.inr (List.mem_map_of_mem (mem_append_right s.allocations he)))
    exact (nodup_append.mp happart).2.2 e.2 (hall e.2 hmem) e.2 (List.mem_map_of_mem he) rfl

/-- An allocation fails for a key without an item, when the pool is empty and nothing is remembered. -/
theorem raises_iff : (∃ s', allocate conf s key = .raises s') ↔
    s.allocations.get key = none ∧ s.pool = ∅ ∧ s.remembered = [] := by
  constructor
  · rintro ⟨s', h⟩
    unfold allocate at h
    split at h
    · cases h
    · next hallocated =>
      split at h
      · cases h
      · by_cases hempty : s.pool = ∅
        · simp only [if_pos hempty] at h
          split at h
          · next hdumped =>
            exact ⟨hallocated, hempty, map_eq_nil_iff.mp (toFinset_eq_empty_iff _ |>.mp hdumped)⟩
          · cases h
        · simp only [if_neg hempty] at h
          cases h
  · rintro ⟨hallocated, hempty, hnil⟩
    unfold allocate
    rw [hallocated, hnil, hempty]
    exact ⟨_, rfl⟩

theorem Inv.raises_iff (h : Inv conf original s)
    (hkey : s.allocations.get key = none ∨ ∃ item ∈ original, item ∉ s.allocations.map Prod.snd) :
    (∃ s', allocate conf s key = .raises s') ↔ ∀ item ∈ original, item ∈ s.allocations.map Prod.snd := by
  rw [ItemAllocator.raises_iff]
  constructor
  · rintro ⟨-, hempty, hnil⟩ item hitem
    have hmem := (h.shares.all item).mp hitem
    rw [hempty, State.entries, hnil, append_nil] at hmem
    exact hmem.resolve_left (Finset.notMem_empty item)
  · intro hall
    refine ⟨hkey.resolve_right ?_, h.remembered_of_all hall⟩
    rintro ⟨item, hitem, hnot⟩
    exact hnot (hall item hitem)

theorem Inv.returns (howns : s.Owns key item) (h : Inv conf original s) :
    ∃ s', allocate conf s key = .returns s' item := by
  have hkeys := h.shares.keys
  rw [State.entries, Dict.KeysNodup, map_append] at hkeys
  unfold allocate
  rcases howns with hallocated | hkept
  · rw [hallocated]
    exact ⟨_, rfl⟩
  · have hnone : s.allocations.get key = none := by
      by_contra hsome
      have hleft : key ∈ s.allocations.map Prod.fst := Dict.mem_keys_iff.mpr (Option.isSome_iff_ne_none.mpr hsome)
      have hright : key ∈ s.remembered.map Prod.fst := Dict.mem_keys_iff.mpr (by rw [hkept]; rfl)
      exact (nodup_append.mp hkeys).2.2 key hleft key hright rfl
    rw [hnone, hkept]
    exact ⟨_, rfl⟩

/-- **No run shares or loses an item**: with the comma as delimiter, keys that are read as they are written, and items
likewise, whatever is allocated, released and started again. -/
theorem allocator_ok (hconf : ConfigOk conf original) {s : State I}
    (h : Reach (step conf original) ActionOk ⟨[], [], original, none⟩ s) : AllocatorOk conf original s := by
  have hinv : Inv conf original s := h.invariant inv_start fun t a u ht ha hstep => ht.step hconf ha hstep
  obtain ⟨es, -, hstart⟩ := hinv.start hconf
  exact {
    apart := hinv.shares.apart
    pool := hinv.shares.pool
    all := hinv.shares.all
    restarts := by rw [step, hstart]; rfl
    returns := fun key item howns => hinv.returns howns
    keeps := fun key item t howns hrun => hinv.owns_run hconf howns hrun
    fails := fun key hkey => hinv.raises_iff hkey }

end

/-- Characters as items. -/
def chars (delimiter : Str) : Config Char where
  itemClass := fun s => if s.length = 1 then s.head? else none
  str c := [c]
  delimiter := delimiter

theorem keyOk_k : KeyOk ['k'] where
  comma := by decide
  newline := by decide
  front c hc := by
    obtain rfl := Option.some.inj hc
    decide

theorem allocator_ok_chars : AllocatorOk (chars [',']) {'x', 'y'}
    ⟨[], [(['k'], 'x')], {'y'}, some ['k', ',', 'x', '\n']⟩ := by
  have hitems : ∀ item ∈ ({'x', 'y'} : Finset Char), item = 'x' ∨ item = 'y' := fun item h => by simpa using h
  have hconf : ConfigOk (chars [',']) {'x', 'y'} := by
    refine ⟨rfl, fun _ _ => rfl, fun item hitem => ?_, fun item hitem => ?_, fun item hitem c hc => ?_⟩
    · rcases hitems item hitem with rfl | rfl <;> decide
    · rcases hitems item hitem with rfl | rfl <;> decide
    · obtain rfl := Option.some.inj hc
      rcases hitems item hitem with rfl | rfl <;> decide
  have hallocate : step (chars [',']) {'x', 'y'} ⟨[], [], {'x', 'y'}, none⟩ (.allocate ['k'] 'x') =
      some ⟨[(['k'], 'x')], [], {'y'}, some ['k', ',', 'x', '\n']⟩ := by decide +kernel
  have hrestart : step (chars [',']) {'x', 'y'} ⟨[(['k'], 'x')], [], {'y'}, some ['k', ',', 'x', '\n']⟩ .restart =
      some ⟨[], [(['k'], 'x')], {'y'}, some ['k', ',', 'x', '\n']⟩ := by decide +kernel
  exact allocator_ok hconf ((Reach.refl.tail keyOk_k hallocate).tail (a := .restart) trivial hrestart)

/-- **With another delimiter** the file cannot be read; **with a blank in front**, a key loses its item. -/
theorem allocator_fails :
    (∃ s, Reach (step (chars [':']) {'x'}) ActionOk ⟨[], [], {'x'}, none⟩ s ∧ step (chars [':']) {'x'} s .restart = none ∧
      ¬ AllocatorOk (chars [':']) {'x'} s) ∧
    ∃ s t, Reach (step (chars [',']) {'x'}) (fun _ _ => True) ⟨[], [], {'x'}, none⟩ s ∧ s.Owns [' ', 'k'] 'x' ∧
      step (chars [',']) {'x'} s .restart = some t ∧ ¬ t.Owns [' ', 'k'] 'x' ∧ ¬ AllocatorOk (chars [',']) {'x'} s := by
  constructor
  · have hrestart : step (chars [':']) {'x'} ⟨[(['k'], 'x')], [], ∅, some ['k', ',', 'x', '\n']⟩ .restart = none := by
      decide +kernel
    refine ⟨_, Reach.refl.tail (a := .allocate ['k'] 'x') keyOk_k (by decide +kernel), hrestart, fun h => ?_⟩
    have hsome := h.restarts
    rw [hrestart] at hsome
    cases hsome
  · have howns : State.Owns ⟨[([' ', 'k'], 'x')], [], ∅, some [' ', 'k', ',', 'x', '\n']⟩ [' ', 'k'] 'x' :=
      Or.inl (by decide +kernel)
    have hrestart : step (chars [',']) {'x'} ⟨[([' ', 'k'], 'x')], [], ∅, some [' ', 'k', ',', 'x', '\n']⟩ .restart =
        some ⟨[], [(['k'], 'x')], ∅, some [' ', 'k', ',', 'x', '\n']⟩ := by decide +kernel
    have hlost : ¬ State.Owns ⟨[], [(['k'], 'x')], ∅, some [' ', 'k', ',', 'x', '\n']⟩ [' ', 'k'] 'x' := by
      rintro (h | h) <;> cases h
    refine ⟨_, _, Reach.refl.tail (a := .allocate [' ', 'k'] 'x') trivial (by decide +kernel), howns, hrestart, hlost,
      fun h => hlost (h.keeps _ _ _ howns ?_)⟩
    exact Reach.refl.tail (a := .restart) ⟨trivial, nofun, id⟩ hrestart

end

end Mitaka.Neutron.ItemAllocator
