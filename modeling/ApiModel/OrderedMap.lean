/-!
Maps that remember the order in which their keys came in. Writing to a key that is present replaces
its value in place; a new key goes to the end. No key occurs twice.
-/

namespace ApiModel

/-- A map as the list of its entries. -/
structure OrderedMap (κ ν : Type) where
  entries : List (κ × ν)
  nodup : (entries.map Prod.fst).Nodup

namespace OrderedMap

variable {κ ν : Type}

instance [DecidableEq κ] [DecidableEq ν] : DecidableEq (OrderedMap κ ν) := fun a b =>
  decidable_of_iff (a.entries = b.entries) (by cases a; cases b; simp)

def empty : OrderedMap κ ν := ⟨[], by simp⟩

instance : Inhabited (OrderedMap κ ν) := ⟨empty⟩

def keys (m : OrderedMap κ ν) : List κ := m.entries.map Prod.fst

def values (m : OrderedMap κ ν) : List ν := m.entries.map Prod.snd

def isEmpty (m : OrderedMap κ ν) : Bool := m.entries.isEmpty

def filter (p : κ → ν → Bool) (m : OrderedMap κ ν) : OrderedMap κ ν :=
  ⟨m.entries.filter fun entry => p entry.1 entry.2,
    m.nodup.sublist (List.filter_sublist.map Prod.fst)⟩

def mapValues (f : ν → ν) (m : OrderedMap κ ν) : OrderedMap κ ν :=
  ⟨m.entries.map fun entry => (entry.1, f entry.2), by
    simpa [List.map_map, Function.comp_def] using m.nodup⟩

@[simp] theorem entries_empty : (empty : OrderedMap κ ν).entries = [] := rfl

@[simp] theorem keys_mapValues (f : ν → ν) (m : OrderedMap κ ν) :
    (m.mapValues f).keys = m.keys := by
  simp [keys, mapValues, List.map_map, Function.comp_def]

variable [DecidableEq κ]

def lookup (key : κ) : List (κ × ν) → Option ν
  | [] => none
  | (k, v) :: entries => if k = key then some v else lookup key entries

def get? (m : OrderedMap κ ν) (key : κ) : Option ν := lookup key m.entries

def contains (m : OrderedMap κ ν) (key : κ) : Bool := (m.get? key).isSome

/-- Replaces the value of the first entry with the key, or adds an entry at the end. -/
def put (key : κ) (value : ν) : List (κ × ν) → List (κ × ν)
  | [] => [(key, value)]
  | (k, v) :: entries => if k = key then (k, value) :: entries else (k, v) :: put key value entries

theorem map_fst_put (key : κ) (value : ν) (entries : List (κ × ν)) :
    (put key value entries).map Prod.fst =
      if key ∈ entries.map Prod.fst then entries.map Prod.fst
      else entries.map Prod.fst ++ [key] := by
  induction entries with
  | nil => simp [put]
  | cons entry entries ih =>
    obtain ⟨k, v⟩ := entry
    by_cases h : k = key
    · simp [put, h]
    · have h' : ¬ key = k := fun e => h e.symm
      rw [put, if_neg h, List.map_cons, ih]
      by_cases hmem : key ∈ entries.map Prod.fst
      · simp [hmem]
      · simp [hmem, h']

theorem nodup_map_fst_put (key : κ) (value : ν) {entries : List (κ × ν)}
    (h : (entries.map Prod.fst).Nodup) : ((put key value entries).map Prod.fst).Nodup := by
  rw [map_fst_put]
  split
  · exact h
  · next hmem =>
    refine List.nodup_append.2 ⟨h, by simp, fun a ha b hb => ?_⟩
    obtain rfl := List.mem_singleton.1 hb
    exact fun e => hmem (e ▸ ha)

def insert (m : OrderedMap κ ν) (key : κ) (value : ν) : OrderedMap κ ν :=
  ⟨put key value m.entries, nodup_map_fst_put key value m.nodup⟩

def erase (m : OrderedMap κ ν) (key : κ) : OrderedMap κ ν := m.filter fun k _ => k ≠ key

@[simp] theorem get?_empty (key : κ) : (empty : OrderedMap κ ν).get? key = none := rfl

theorem lookup_put (key key' : κ) (value : ν) (entries : List (κ × ν)) :
    lookup key' (put key value entries) =
      if key = key' then some value else lookup key' entries := by
  induction entries with
  | nil => simp [put, lookup]
  | cons entry entries ih =>
    obtain ⟨k, v⟩ := entry
    rw [put]
    by_cases h : k = key
    · rw [if_pos h]
      by_cases h' : key = key' <;> simp [lookup, h, h']
    · rw [if_neg h]
      by_cases h' : k = key'
      · have h'' : ¬ key = key' := fun e => h (h'.trans e.symm)
        simp [lookup, h', h'']
      · simp [lookup, h', ih]

@[simp] theorem get?_insert (m : OrderedMap κ ν) (key key' : κ) (value : ν) :
    (m.insert key value).get? key' = if key = key' then some value else m.get? key' :=
  lookup_put key key' value m.entries

@[simp] theorem keys_insert (m : OrderedMap κ ν) (key : κ) (value : ν) :
    (m.insert key value).keys = if key ∈ m.keys then m.keys else m.keys ++ [key] :=
  map_fst_put key value m.entries

theorem put_of_lookup_eq_none {key : κ} {entries : List (κ × ν)} (h : lookup key entries = none)
    (value : ν) : put key value entries = entries ++ [(key, value)] := by
  induction entries with
  | nil => rfl
  | cons entry entries ih =>
    obtain ⟨k, v⟩ := entry
    rw [lookup] at h
    by_cases hk : k = key
    · rw [if_pos hk] at h
      cases h
    · rw [if_neg hk] at h
      rw [put, if_neg hk, ih h]
      rfl

theorem entries_insert_of_get?_eq_none {m : OrderedMap κ ν} {key : κ} (h : m.get? key = none)
    (value : ν) : (m.insert key value).entries = m.entries ++ [(key, value)] :=
  put_of_lookup_eq_none h value

theorem lookup_eq_some_iff {key : κ} {value : ν} {entries : List (κ × ν)}
    (h : (entries.map Prod.fst).Nodup) :
    lookup key entries = some value ↔ (key, value) ∈ entries := by
  induction entries with
  | nil => simp [lookup]
  | cons entry entries ih =>
    obtain ⟨k, v⟩ := entry
    simp only [List.map_cons, List.nodup_cons] at h
    by_cases hk : k = key
    · subst hk
      have hmem : (k, value) ∉ entries := fun hm => h.1 (List.mem_map_of_mem (f := Prod.fst) hm)
      simp [lookup, hmem, eq_comm]
    · have hk' : ¬ key = k := fun e => hk e.symm
      simp [lookup, hk, hk', ih h.2]

theorem get?_eq_some_iff {m : OrderedMap κ ν} {key : κ} {value : ν} :
    m.get? key = some value ↔ (key, value) ∈ m.entries :=
  lookup_eq_some_iff m.nodup

theorem get?_filter (p : κ → ν → Bool) (m : OrderedMap κ ν) (key : κ) :
    (m.filter p).get? key = (m.get? key).filter (p key) := by
  cases h : m.get? key with
  | none =>
    cases h' : (m.filter p).get? key with
    | none => rfl
    | some value =>
      have hmem := get?_eq_some_iff.1 h'
      have hkept := (List.mem_filter.1 hmem).1
      rw [get?_eq_some_iff.2 hkept] at h
      exact absurd h (by simp)
  | some value =>
    have hmem := get?_eq_some_iff.1 h
    by_cases hp : p key value = true
    · rw [get?_eq_some_iff.2 (List.mem_filter.2 ⟨hmem, hp⟩)]
      simp [Option.filter, hp]
    · cases h' : (m.filter p).get? key with
      | none => simp [Option.filter, hp]
      | some value' =>
        have hmem' := get?_eq_some_iff.1 h'
        have hkept := List.mem_filter.1 hmem'
        rw [get?_eq_some_iff.2 hkept.1] at h
        simp_all

theorem filter_eq_self {p : κ → ν → Bool} {m : OrderedMap κ ν}
    (h : ∀ key value, m.get? key = some value → p key value = true) : m.filter p = m := by
  have hentries : (m.filter p).entries = m.entries :=
    List.filter_eq_self.mpr fun entry he => h _ _ (get?_eq_some_iff.mpr he)
  generalize m.filter p = kept at hentries
  cases kept
  cases m
  cases hentries
  rfl

theorem entries_erase_of_append {m m' : OrderedMap κ ν} {key : κ} {added : List (κ × ν)}
    (h : m.get? key = none) (he : m'.entries = m.entries ++ added) :
    (m'.erase key).entries = m.entries ++ added.filter fun entry => entry.1 ≠ key := by
  have hkept : m.entries.filter (fun entry => entry.1 ≠ key) = m.entries := by
    refine List.filter_eq_self.mpr fun entry hm => decide_eq_true fun hkey => ?_
    subst hkey
    rw [get?_eq_some_iff.mpr hm] at h
    cases h
  show m'.entries.filter (fun entry => decide (entry.1 ≠ key)) = _
  rw [he, List.filter_append, hkept]

@[simp] theorem get?_erase (m : OrderedMap κ ν) (key key' : κ) :
    (m.erase key).get? key' = if key = key' then none else m.get? key' := by
  rw [erase, get?_filter]
  by_cases h : key = key'
  · cases m.get? key' <;> simp [Option.filter, h]
  · have h' : ¬ key' = key := fun e => h e.symm
    cases m.get? key' <;> simp [Option.filter, h, h']

@[simp] theorem get?_mapValues (f : ν → ν) (m : OrderedMap κ ν) (key : κ) :
    (m.mapValues f).get? key = (m.get? key).map f := by
  obtain ⟨entries, h⟩ := m
  simp only [get?, mapValues]
  clear h
  induction entries with
  | nil => rfl
  | cons entry entries ih =>
    by_cases hk : entry.1 = key <;> simp [lookup, hk, ih]

def KeyedBy (name : ν → κ) (m : OrderedMap κ ν) : Prop :=
  ∀ key value, m.get? key = some value → name value = key

namespace KeyedBy

variable {name : ν → κ} {m : OrderedMap κ ν}

theorem insert (h : m.KeyedBy name) (value : ν) : (m.insert (name value) value).KeyedBy name := by
  intro key stored hget
  rw [get?_insert] at hget
  split at hget
  · next hkey =>
    cases hget
    exact hkey
  · exact h key stored hget

theorem mapValues (h : m.KeyedBy name) {f : ν → ν} (hf : ∀ value, name (f value) = name value) :
    (m.mapValues f).KeyedBy name := by
  intro key stored hget
  rw [get?_mapValues] at hget
  obtain ⟨value, hvalue, rfl⟩ := Option.map_eq_some_iff.mp hget
  rw [hf, h key value hvalue]

theorem map_values (h : m.KeyedBy name) : m.values.map name = m.keys := by
  rw [values, keys, List.map_map]
  exact List.map_congr_left fun entry he => h _ _ (get?_eq_some_iff.mpr he)

end KeyedBy

end OrderedMap

end ApiModel
