import TermMining.OrderedMap

/-! Look-ups after every operation on maps. -/
namespace TermMining.OrderedMap

variable {κ ν μ : Type}

theorem entries_nodup (m : OrderedMap κ ν) : m.entries.Nodup :=
  (List.pairwise_map.1 m.keys_nodup).imp fun h heq => h (congrArg Prod.fst heq)

theorem ext_entries {m n : OrderedMap κ ν} (h : m.entries = n.entries) : m = n := by
  cases m
  cases n
  congr

variable [DecidableEq κ]

theorem filter_key_eq_nil {l : List (κ × ν)} {k : κ} (h : k ∉ l.map Prod.fst) :
    l.filter (fun e => e.1 = k) = [] := by
  rw [List.filter_eq_nil_iff]
  intro e he heq
  exact h (List.mem_map.2 ⟨e, he, of_decide_eq_true heq⟩)

theorem filter_key_eq_singleton {l : List (κ × ν)} {k : κ} {v : ν} (h : (l.map Prod.fst).Nodup)
    (hmem : (k, v) ∈ l) : l.filter (fun e => e.1 = k) = [(k, v)] := by
  induction l with
  | nil => simp at hmem
  | cons e l ih =>
    obtain ⟨hnew, hl⟩ := List.nodup_cons.1 h
    rcases List.mem_cons.1 hmem with rfl | hmem
    · rw [List.filter_cons_of_pos (by simp), filter_key_eq_nil hnew]
    · have hne : e.1 ≠ k := fun heq => hnew (heq ▸ List.mem_map.2 ⟨_, hmem, rfl⟩)
      rw [List.filter_cons_of_neg (by simpa using hne), ih hl hmem]

theorem find?_insert (m : OrderedMap κ ν) (k : κ) (v : ν) (j : κ) :
    (m.insert k v).find? j = if j = k then some v else m.find? j := by
  split
  · next h => rw [h, find?_insert_self]
  · next h => exact m.find?_insert_of_ne v h

theorem find?_erase (m : OrderedMap κ ν) (k j : κ) :
    (m.erase k).find? j = if j = k then none else m.find? j := by
  split
  · next h => rw [h, find?_erase_self]
  · next h => exact m.find?_erase_of_ne h

theorem find?_update (m : OrderedMap κ ν) (k : κ) (f : Option ν → ν) (j : κ) :
    (m.update k f).find? j = if j = k then some (f (m.find? k)) else m.find? j :=
  m.find?_insert k _ j

theorem find?_map (m : OrderedMap κ ν) (f : ν → μ) (k : κ) :
    (m.map f).find? k = (m.find? k).map f := by
  unfold find? map
  rw [List.find?_map, Option.map_map, Option.map_map]
  rfl

theorem find?_filter (m : OrderedMap κ ν) (p : κ → ν → Bool) (k : κ) :
    (m.filter p).find? k = (m.find? k).filter (p k) := by
  ext v
  rw [find?_eq_some_iff, Option.filter_eq_some_iff, find?_eq_some_iff]
  exact List.mem_filter

theorem contains_eq_isSome (m : OrderedMap κ ν) (k : κ) : m.contains k = (m.find? k).isSome := by
  rw [Bool.eq_iff_iff, contains_iff_find?, Option.isSome_iff_exists]

theorem find?_ensure (m : OrderedMap κ ν) (k : κ) (v : ν) (j : κ) :
    (m.ensure k v).find? j = if j = k then some ((m.find? k).getD v) else m.find? j := by
  unfold ensure
  rw [contains_eq_isSome]
  cases h : m.find? k with
  | none => exact m.find?_insert k v j
  | some w =>
    rw [Option.isSome_some, if_pos rfl]
    split
    · next hj => rw [hj, h, Option.getD_some]
    · rfl

theorem mem_keys_iff {m : OrderedMap κ ν} {k : κ} : k ∈ m.keys ↔ (m.find? k).isSome := by
  rw [Option.isSome_iff_exists]
  constructor
  · intro h
    obtain ⟨e, he, rfl⟩ := List.mem_map.1 h
    exact ⟨e.2, m.find?_eq_some_iff.2 he⟩
  · rintro ⟨v, h⟩
    exact List.mem_map.2 ⟨_, m.find?_eq_some_iff.1 h, rfl⟩

theorem size_ne_zero_iff {m : OrderedMap κ ν} : m.size ≠ 0 ↔ ∃ k v, m.find? k = some v := by
  unfold size
  rw [Ne, List.length_eq_zero_iff, List.eq_nil_iff_forall_not_mem]
  constructor
  · intro h
    obtain ⟨e, he⟩ := Classical.not_forall_not.1 h
    exact ⟨e.1, e.2, m.find?_eq_some_iff.2 he⟩
  · rintro ⟨k, v, h⟩ hnil
    exact hnil (k, v) (m.find?_eq_some_iff.1 h)

theorem size_eq {m : OrderedMap κ ν} {n : OrderedMap κ μ}
    (h : ∀ k, (m.find? k).isSome = (n.find? k).isSome) : m.size = n.size := by
  have hp : m.keys.Perm n.keys := by
    apply (List.perm_ext_iff_of_nodup m.keys_nodup n.keys_nodup).2
    intro k
    change k ∈ m.keys ↔ k ∈ n.keys
    rw [mem_keys_iff, mem_keys_iff, h]
  have hlen := hp.length_eq
  rwa [keys, keys, List.length_map, List.length_map] at hlen

theorem entries_insert (m : OrderedMap κ ν) (k : κ) (v : ν) :
    (m.insert k v).entries =
      if m.contains k then m.entries.map fun e => if e.1 = k then (k, v) else e
      else m.entries ++ [(k, v)] := by
  unfold insert
  split <;> rfl

theorem entries_foldl_insert (l : List (κ × ν)) {m : OrderedMap κ ν}
    (h : (m.keys ++ l.map Prod.fst).Nodup) :
    (l.foldl (fun m e => m.insert e.1 e.2) m).entries = m.entries ++ l := by
  induction l generalizing m with
  | nil => simp
  | cons e l ih =>
    have hnot : e.1 ∉ m.keys := fun hk =>
      (List.nodup_append.1 h).2.2 e.1 hk e.1 List.mem_cons_self rfl
    have hnew : ¬m.contains e.1 = true := by
      rw [contains_eq_isSome, ← mem_keys_iff]
      exact hnot
    have hrest : ((m.insert e.1 e.2).keys ++ l.map Prod.fst).Nodup := by
      rw [keys_insert, if_neg hnew, List.append_assoc]
      exact h
    rw [List.foldl_cons, ih hrest, entries_insert, if_neg hnew, List.append_assoc]
    rfl

/-- Pairs with different keys stand in the map as they came. -/
theorem entries_ofList {l : List (κ × ν)} (h : (l.map Prod.fst).Nodup) :
    (ofList l).entries = l :=
  entries_foldl_insert l h

theorem contains_map (m : OrderedMap κ ν) (f : ν → μ) (k : κ) :
    (m.map f).contains k = m.contains k := by
  rw [contains_eq_isSome, contains_eq_isSome, find?_map, Option.isSome_map]

theorem find?_filter_key (m : OrderedMap κ ν) (p : κ → Bool) (k : κ) :
    (m.filter fun j _ => p j).find? k = if p k then m.find? k else none := by
  rw [find?_filter]
  cases p k <;> cases m.find? k <;> rfl

theorem insert_of_find? {m : OrderedMap κ ν} {k : κ} {v : ν} (h : m.find? k = some v) :
    m.insert k v = m := by
  have hc : m.contains k = true := (m.contains_iff_find? k).2 ⟨v, h⟩
  apply ext_entries
  rw [entries_insert, if_pos hc]
  apply (List.map_congr_left fun e he => ?_).trans (List.map_id _)
  split
  · next hk =>
    have hfind : m.find? k = some e.2 := m.find?_eq_some_iff.2 (hk ▸ he)
    exact Prod.ext hk.symm (Option.some.inj (h.symm.trans hfind))
  · rfl

theorem map_insert (m : OrderedMap κ ν) (f : ν → μ) (k : κ) (v : ν) :
    (m.insert k v).map f = (m.map f).insert k (f v) := by
  apply ext_entries
  change (m.insert k v).entries.map _ = _
  rw [entries_insert, entries_insert, contains_map]
  split
  · change _ = (m.entries.map _).map _
    rw [List.map_map, List.map_map]
    apply List.map_congr_left
    intro e _
    by_cases hk : e.1 = k <;> simp [hk]
  · rw [List.map_append]
    rfl

theorem map_ensure (m : OrderedMap κ ν) (f : ν → μ) (k : κ) (v : ν) :
    (m.ensure k v).map f = (m.map f).ensure k (f v) := by
  unfold ensure
  rw [contains_map]
  split
  · rfl
  · exact m.map_insert f k v

theorem map_update (m : OrderedMap κ ν) (f : ν → μ) (k : κ) {g : Option ν → ν}
    {h : Option μ → μ} (hgh : f (g (m.find? k)) = h ((m.find? k).map f)) :
    (m.update k g).map f = (m.map f).update k h := by
  unfold update
  rw [map_insert, find?_map, hgh]

/-- A key that is left out may as well not be put in. -/
theorem filter_key_insert (m : OrderedMap κ ν) (p : κ → Bool) (k : κ) (v : ν) :
    (m.insert k v).filter (fun j _ => p j) =
      if p k then (m.filter fun j _ => p j).insert k v else m.filter fun j _ => p j := by
  let overwrite : κ × ν → κ × ν := fun e => if e.1 = k then (k, v) else e
  have hfst : ∀ e, (overwrite e).1 = e.1 := by
    intro e
    by_cases hk : e.1 = k <;> simp [overwrite, hk]
  have hswap : (m.entries.map overwrite).filter (fun e => p e.1) =
      (m.entries.filter fun e => p e.1).map overwrite := by
    rw [List.filter_map]
    simp only [Function.comp_def, hfst]
  apply ext_entries
  change (m.insert k v).entries.filter (fun e => p e.1) = _
  rw [entries_insert]
  by_cases hp : p k = true
  · have hc : (m.filter fun j _ => p j).contains k = m.contains k := by
      rw [contains_eq_isSome, contains_eq_isSome, find?_filter_key, if_pos hp]
    rw [if_pos hp, entries_insert, hc]
    split
    · exact hswap
    · rw [List.filter_append, List.filter_cons_of_pos (by exact hp)]
      rfl
  · rw [if_neg hp]
    split
    · rw [hswap]
      apply (List.map_congr_left fun e he => ?_).trans (List.map_id _)
      have hk : e.1 ≠ k := fun hk => hp (hk ▸ (List.mem_filter.1 he).2)
      exact if_neg hk
    · rw [List.filter_append, List.filter_cons_of_neg (by exact hp), List.filter_nil,
        List.append_nil]
      rfl

theorem filter_key_update (m : OrderedMap κ ν) {p : κ → Bool} {k : κ} (h : p k = true)
    (f : Option ν → ν) :
    (m.update k f).filter (fun j _ => p j) = (m.filter fun j _ => p j).update k f := by
  unfold update
  rw [filter_key_insert, if_pos h, find?_filter_key, if_pos h]

end TermMining.OrderedMap
