/-! Maps that remember the order in which their keys were first put in. Overwriting a value keeps
the place of its key; erasing a key and putting it in again moves it to the end. -/
namespace TermMining

structure OrderedMap (κ ν : Type) where
  entries : List (κ × ν)
  keys_nodup : (entries.map Prod.fst).Nodup

namespace OrderedMap

variable {κ ν μ : Type}

def empty : OrderedMap κ ν := ⟨[], List.nodup_nil⟩

instance : Inhabited (OrderedMap κ ν) := ⟨empty⟩

def keys (m : OrderedMap κ ν) : List κ := m.entries.map Prod.fst

def values (m : OrderedMap κ ν) : List ν := m.entries.map Prod.snd

def size (m : OrderedMap κ ν) : Nat := m.entries.length

def map (f : ν → μ) (m : OrderedMap κ ν) : OrderedMap κ μ where
  entries := m.entries.map fun e => (e.1, f e.2)
  keys_nodup := by simpa [Function.comp_def] using m.keys_nodup

def filter (p : κ → ν → Bool) (m : OrderedMap κ ν) : OrderedMap κ ν where
  entries := m.entries.filter fun e => p e.1 e.2
  keys_nodup := m.keys_nodup.sublist (List.filter_sublist.map Prod.fst)

variable [DecidableEq κ]

def find? (m : OrderedMap κ ν) (k : κ) : Option ν :=
  (m.entries.find? fun e => e.1 = k).map Prod.snd

def contains (m : OrderedMap κ ν) (k : κ) : Bool := m.entries.any fun e => e.1 = k

def erase (m : OrderedMap κ ν) (k : κ) : OrderedMap κ ν := m.filter fun j _ => j ≠ k

private theorem map_fst_overwrite (l : List (κ × ν)) (k : κ) (v : ν) :
    (l.map fun e => if e.1 = k then (k, v) else e).map Prod.fst = l.map Prod.fst := by
  induction l with
  | nil => rfl
  | cons e l ih => by_cases h : e.1 = k <;> simp_all

def insert (m : OrderedMap κ ν) (k : κ) (v : ν) : OrderedMap κ ν :=
  if h : m.contains k then
    ⟨m.entries.map fun e => if e.1 = k then (k, v) else e,
      (map_fst_overwrite m.entries k v).symm ▸ m.keys_nodup⟩
  else
    ⟨m.entries ++ [(k, v)], by
      have hk : k ∉ m.entries.map Prod.fst := by
        intro hmem
        obtain ⟨e, he, rfl⟩ := List.mem_map.1 hmem
        exact h (List.any_eq_true.2 ⟨e, he, by simp⟩)
      rw [List.map_append, List.nodup_append]
      refine ⟨m.keys_nodup, by simp, ?_⟩
      intro a ha b hb hab
      obtain rfl : b = k := by simpa using hb
      exact hk (hab ▸ ha)⟩

/-- Overwrites the value of `k` by a function of the value it had. -/
def update (m : OrderedMap κ ν) (k : κ) (f : Option ν → ν) : OrderedMap κ ν :=
  m.insert k (f (m.find? k))

/-- Puts in a key with a value of its own, unless it is there already. -/
def ensure (m : OrderedMap κ ν) (k : κ) (v : ν) : OrderedMap κ ν :=
  if m.contains k then m else m.insert k v

/-- A later pair overwrites an earlier one with the same key. -/
def ofList (l : List (κ × ν)) : OrderedMap κ ν :=
  l.foldl (fun m e => m.insert e.1 e.2) empty

@[simp] theorem find?_empty (k : κ) : (empty : OrderedMap κ ν).find? k = none := rfl

theorem contains_iff_find? (m : OrderedMap κ ν) (k : κ) :
    m.contains k = true ↔ ∃ v, m.find? k = some v := by
  simp only [contains, find?, List.any_eq_true, Option.map_eq_some_iff]
  constructor
  · rintro ⟨e, he, hk⟩
    obtain ⟨a, ha⟩ := Option.isSome_iff_exists.1
      (List.find?_isSome (p := fun e : κ × ν => decide (e.1 = k)) |>.2 ⟨e, he, hk⟩)
    exact ⟨a.2, a, ha, rfl⟩
  · rintro ⟨_, a, ha, _⟩
    exact ⟨a, List.mem_of_find?_eq_some ha, by simpa using List.find?_some ha⟩

private theorem find?_overwrite_self (l : List (κ × ν)) (k : κ) (v : ν)
    (h : l.any fun e => e.1 = k) :
    ((l.map fun e => if e.1 = k then (k, v) else e).find? fun e => e.1 = k) = some (k, v) := by
  induction l with
  | nil => simp at h
  | cons e l ih =>
    by_cases he : e.1 = k
    · simp [he]
    · simp only [List.map_cons, if_neg he, List.find?_cons, decide_eq_false he]
      exact ih (by simpa [he] using h)

private theorem find?_overwrite_ne (l : List (κ × ν)) {j k : κ} (v : ν) (h : j ≠ k) :
    ((l.map fun e => if e.1 = k then (k, v) else e).find? fun e => e.1 = j) =
      l.find? fun e => e.1 = j := by
  induction l with
  | nil => rfl
  | cons e l ih =>
    by_cases he : e.1 = k
    · simp [he, Ne.symm h, ih]
    · simp [he, List.find?_cons, ih]

@[simp] theorem find?_insert_self (m : OrderedMap κ ν) (k : κ) (v : ν) :
    (m.insert k v).find? k = some v := by
  by_cases h : m.contains k
  · simp only [insert, dif_pos h, find?]
    rw [find?_overwrite_self _ _ _ h]
    rfl
  · have hn : m.entries.find? (fun e => e.1 = k) = none :=
      List.find?_eq_none.2 fun e he hk => h (List.any_eq_true.2 ⟨e, he, hk⟩)
    simp [insert, h, find?, hn]

theorem find?_insert_of_ne (m : OrderedMap κ ν) {j k : κ} (v : ν) (h : j ≠ k) :
    (m.insert k v).find? j = m.find? j := by
  by_cases hc : m.contains k
  · simp only [insert, dif_pos hc, find?]
    rw [find?_overwrite_ne _ _ h]
  · simp [insert, hc, find?, List.find?_append, Ne.symm h]

@[simp] theorem find?_erase_self (m : OrderedMap κ ν) (k : κ) : (m.erase k).find? k = none := by
  simp [erase, filter, find?, List.find?_eq_none]

theorem find?_erase_of_ne (m : OrderedMap κ ν) {j k : κ} (h : j ≠ k) :
    (m.erase k).find? j = m.find? j := by
  simp only [erase, filter, find?, List.find?_filter]
  congr 2
  funext e
  by_cases he : e.1 = j <;> simp [he, h]

theorem find?_eq_some_iff (m : OrderedMap κ ν) {k : κ} {v : ν} :
    m.find? k = some v ↔ (k, v) ∈ m.entries := by
  have hm := m.keys_nodup
  simp only [find?, Option.map_eq_some_iff]
  generalize m.entries = l at *
  induction l with
  | nil => simp
  | cons e l ih =>
    obtain ⟨j, w⟩ := e
    obtain ⟨hj, hl⟩ := List.nodup_cons.1 hm
    by_cases h : j = k
    · subst h
      have hv : (j, v) ∉ l := fun hmem => hj (List.mem_map.2 ⟨_, hmem, rfl⟩)
      simp [hv, eq_comm]
    · simpa [List.find?_cons, h, Ne.symm h] using ih hl

theorem keys_insert (m : OrderedMap κ ν) (k : κ) (v : ν) :
    (m.insert k v).keys = if m.contains k then m.keys else m.keys ++ [k] := by
  by_cases h : m.contains k
  · simp only [insert, dif_pos h, if_pos h, keys]
    exact map_fst_overwrite _ _ _
  · simp [insert, h, keys]

end OrderedMap
end TermMining
