import Mathlib.Data.List.Nodup
import TermMining.Tally

/-! What a tally holds: terms without repetition, each with the count that is looked up under its
field and text. -/
namespace TermMining.Tally

def count? (t : Tally) (term : Term) : Option Int :=
  (t.find? term.field).bind fun counts => counts.find? term.text

theorem mem_terms_iff {t : Tally} {term : Term} {n : Int} :
    (term, n) ∈ t.terms ↔ t.count? term = some n := by
  unfold terms count?
  rw [List.mem_flatMap, Option.bind_eq_some_iff]
  constructor
  · rintro ⟨⟨field, counts⟩, hf, hmem⟩
    obtain ⟨⟨text, m⟩, he, heq⟩ := List.mem_map.1 hmem
    obtain ⟨rfl, rfl⟩ := Prod.mk.inj heq
    exact ⟨counts, t.find?_eq_some_iff.2 hf, counts.find?_eq_some_iff.2 he⟩
  · rintro ⟨counts, hf, he⟩
    have hmem : (term, n) ∈ counts.entries.map fun e => ((⟨term.field, e.1⟩ : Term), e.2) :=
      List.mem_map.2 ⟨(term.text, n), counts.find?_eq_some_iff.1 he, rfl⟩
    exact ⟨(term.field, counts), t.find?_eq_some_iff.1 hf, hmem⟩

theorem length_terms (t : Tally) : t.terms.length = t.size := by
  unfold terms size OrderedMap.values
  rw [List.length_flatMap, List.map_map]
  congr 1
  exact List.map_congr_left fun f _ => List.length_map _

theorem nodup_terms (t : Tally) : (t.terms.map Prod.fst).Nodup := by
  have hfields : t.entries.Pairwise fun f g => f.1 ≠ g.1 := List.pairwise_map.1 t.keys_nodup
  unfold terms
  rw [List.map_flatMap]
  apply List.nodup_flatMap.2
  constructor
  · intro f _
    have htexts : f.2.entries.Pairwise fun d e => d.1 ≠ e.1 := List.pairwise_map.1 f.2.keys_nodup
    rw [List.map_map]
    exact List.pairwise_map.2 (htexts.imp fun hne heq => hne (congrArg Term.text heq))
  · apply hfields.imp
    intro f g hne term hf hg
    simp only [List.map_map] at hf hg
    obtain ⟨d, -, rfl⟩ := List.mem_map.1 hf
    obtain ⟨e, -, heq⟩ := List.mem_map.1 hg
    exact hne (congrArg Term.field heq).symm

theorem terms_perm {t u : Tally} (h : ∀ term, t.count? term = u.count? term) :
    t.terms.Perm u.terms := by
  have ht : t.terms.Nodup := List.Nodup.of_map _ t.nodup_terms
  have hu : u.terms.Nodup := List.Nodup.of_map _ u.nodup_terms
  rw [List.perm_ext_iff_of_nodup ht hu]
  intro ⟨term, n⟩
  rw [mem_terms_iff, mem_terms_iff, h]

end TermMining.Tally
