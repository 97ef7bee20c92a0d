/-!
# Tables with distinct keys

Programs and call graphs keep what they hold in a list of pairs, looked up by
the first component.  When no key stands twice in such a list, looking a key up
is the same as being in the list.
-/

namespace CallReach.Table

variable {α β : Type} [BEq α] [LawfulBEq α]

/-- What is found under a key stands there. -/
theorem mem_of_lookup {table : List (α × β)} {key : α} {value : β}
    (h : table.lookup key = some value) : (key, value) ∈ table := by
  obtain ⟨before, after, rfl, -⟩ := List.lookup_eq_some_iff.1 h
  simp

/-- What stands under a key is found there, as soon as no key stands twice. -/
theorem lookup_of_mem {table : List (α × β)} {key : α} {value : β}
    (hkeys : (table.map (·.1)).Nodup) (h : (key, value) ∈ table) :
    table.lookup key = some value := by
  obtain ⟨before, after, rfl⟩ := List.append_of_mem h
  refine List.lookup_eq_some_iff.2 ⟨before, after, rfl, fun entry hentry => ?_⟩
  simp only [List.map_append, List.map_cons, List.nodup_append] at hkeys
  have hne : entry.1 ≠ key :=
    hkeys.2.2 _ (List.mem_map_of_mem hentry) _ List.mem_cons_self
  simpa using hne.symm

/-- A key that is not found is the key of no entry. -/
theorem not_mem_keys_of_lookup {table : List (α × β)} {key : α}
    (h : table.lookup key = none) : key ∉ table.map (·.1) := by
  intro hmem
  obtain ⟨entry, hentry, rfl⟩ := List.mem_map.1 hmem
  have hne := List.lookup_eq_none_iff.1 h entry hentry
  simp at hne

/-- A new key at the end keeps the keys distinct. -/
theorem nodup_keys_append {table : List (α × β)} {key : α} {value : β}
    (hkeys : (table.map (·.1)).Nodup) (hnew : table.lookup key = none) :
    ((table ++ [(key, value)]).map (·.1)).Nodup := by
  rw [List.map_append, List.nodup_append]
  refine ⟨hkeys, by simp, fun other hother last hlast => ?_⟩
  have hlast : last = key := by simpa using hlast
  rintro rfl
  exact not_mem_keys_of_lookup hnew (hlast ▸ hother)

end CallReach.Table
