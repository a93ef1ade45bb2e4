import Mathlib

/-! Facts about the entries of an association list after `insert` and `erase`: what holds of
every entry is kept by inserting an entry that has it; the entry of a present key can be
brought to the front, so a sum over the entries changes by the replaced term and an `erase`
shortens the entries by one; and when the key was present the values of the new map are
those of the old one with the key's value replaced, in another order. -/

namespace AList

variable {α : Type} [DecidableEq α] {β : α → Type}

/-- A property of every entry survives inserting an entry that has it. -/
theorem forall_entries_insert {P : Sigma β → Prop} {s : AList β} {a : α} {b : β a}
    (old : ∀ e ∈ s.entries, P e) (new : P ⟨a, b⟩) : ∀ e ∈ (s.insert a b).entries, P e := by
  intro e mem
  rw [entries_insert, List.mem_cons] at mem
  rcases mem with rfl | mem
  · exact new
  · exact old e ((List.kerase_sublist a s.entries).subset mem)

/-- The entry of a present key can be brought to the front of the entries. -/
theorem perm_cons_kerase {s : AList β} {a : α} {b : β a} (found : s.lookup a = some b) :
    s.entries.Perm (⟨a, b⟩ :: List.kerase a s.entries) := by
  have mem : ⟨a, b⟩ ∈ s.entries := mem_lookup_iff.mp found
  obtain ⟨b', before, after, -, split, erased⟩ := List.exists_of_kerase (List.mem_keys_of_mem mem)
  have same : b' = b := s.nodupKeys.eq_of_mk_mem (split ▸ List.mem_append_right _ List.mem_cons_self) mem
  rw [erased, split, same]
  exact List.perm_middle

section Sum

variable (g : Sigma β → Nat)

theorem sum_map_insert_of_notMem {s : AList β} {a : α} (absent : a ∉ s) (b : β a) :
    ((s.insert a b).entries.map g).sum = g ⟨a, b⟩ + (s.entries.map g).sum := by
  rw [entries_insert_of_notMem absent, List.map_cons, List.sum_cons]

/-- Replacing the value of a present key replaces its term in a sum over the entries. -/
theorem sum_map_insert_of_lookup {s : AList β} {a : α} {old : β a} (found : s.lookup a = some old)
    (b : β a) : ((s.insert a b).entries.map g).sum + g ⟨a, old⟩ = (s.entries.map g).sum + g ⟨a, b⟩ := by
  rw [((perm_cons_kerase found).map g).sum_eq, entries_insert, List.map_cons, List.map_cons, List.sum_cons,
    List.sum_cons]
  omega

theorem le_sum_map_of_lookup {s : AList β} {a : α} {old : β a} (found : s.lookup a = some old) :
    g ⟨a, old⟩ ≤ (s.entries.map g).sum := by
  rw [((perm_cons_kerase found).map g).sum_eq, List.map_cons, List.sum_cons]
  exact Nat.le_add_right _ _

end Sum

theorem length_erase_of_lookup {s : AList β} {a : α} {b : β a} (found : s.lookup a = some b) :
    (s.erase a).entries.length + 1 = s.entries.length := by
  rw [(perm_cons_kerase found).length_eq, List.length_cons]
  rfl

variable {γ : Type}

/-- Inserting at a present key gives the values of the map in which that key's value was
replaced in place, up to order. -/
theorem map_insert_perm {s : AList fun _ : α => γ} {a : α} (present : a ∈ s) (b : γ) :
    (s.entries.map fun e => if e.1 = a then b else e.2).Perm ((s.insert a b).entries.map (·.2)) := by
  obtain ⟨old, before, after, absent, split, erased⟩ :=
    List.exists_of_kerase (mem_keys.mp present)
  rw [entries_insert, erased, split]
  -- away from the key the replacement reads the stored value
  have keep : ∀ l : List (Sigma fun _ : α => γ), a ∉ l.keys →
      (l.map fun e => if e.1 = a then b else e.2) = l.map (·.2) := by
    intro l notIn
    apply List.map_congr_left
    intro e mem
    have : e.1 ≠ a := fun same => notIn (same ▸ List.mem_keys_of_mem mem)
    simp [this]
  have nodup := s.nodupKeys
  rw [split] at nodup
  have afterAbsent : a ∉ after.keys := fun mem =>
    (List.nodupKeys_cons.mp (List.NodupKeys.sublist (List.sublist_append_right before _) nodup)).1 mem
  simp only [List.map_append, List.map_cons, keep before absent, keep after afterAbsent]
  exact List.perm_middle

end AList
