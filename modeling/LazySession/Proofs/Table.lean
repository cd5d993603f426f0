import LazySession.Table

/-!
# Tables without double names
-/

namespace LazySession

namespace Table

variable {α : Type} {t : Table α} {name x : String} {a b : α}

theorem mem_of_get? (h : t.get? x = some a) : (x, a) ∈ t := by
  induction t with
  | nil => cases h
  | cons p t ih =>
    obtain ⟨n, b⟩ := p
    unfold get? at h
    split at h
    · simp_all
    · exact List.mem_cons_of_mem _ (ih h)

theorem get?_of_mem (hn : t.names.Nodup) (h : (x, a) ∈ t) : t.get? x = some a := by
  induction t with
  | nil => cases h
  | cons p t ih =>
    obtain ⟨n, b⟩ := p
    simp only [names, List.map_cons, List.nodup_cons] at hn
    unfold get?
    rcases List.mem_cons.mp h with he | h
    · simp_all
    · have hne : n ≠ x := fun he => hn.1 (he ▸ List.mem_map_of_mem h)
      rw [if_neg hne]
      exact ih hn.2 h

theorem get?_isSome : (t.get? x).isSome ↔ x ∈ t.names := by
  induction t with
  | nil => simp [get?, names]
  | cons p t ih => grind [get?, names]

theorem get?_eq_none : t.get? x = none ↔ x ∉ t.names := by
  rw [← get?_isSome]
  simp

theorem put_of_not_has (h : t.has name = false) : t.put name a = t ++ [(name, a)] := by
  induction t with
  | nil => rfl
  | cons p t ih =>
    obtain ⟨n, b⟩ := p
    unfold has get? at h
    split at h
    · cases h
    · rename_i hne
      rw [put, if_neg hne, ih h, List.cons_append]

theorem nodup_put (hn : t.names.Nodup) (name : String) (a : α) : (t.put name a).names.Nodup := by
  rw [names_put]
  split
  · exact hn
  · rename_i h
    refine List.nodup_append.mpr ⟨hn, by simp, fun x hx y hy he => h ?_⟩
    rw [← List.mem_singleton.mp hy, ← he]
    exact hx

theorem forall_put {P : String → α → Prop} (h : ∀ p ∈ t, P p.1 p.2) (ha : P name a) :
    ∀ p ∈ t.put name a, P p.1 p.2 := by
  induction t with
  | nil =>
    intro p hp
    rw [List.mem_singleton.mp hp]
    exact ha
  | cons q t ih =>
    obtain ⟨n, b⟩ := q
    have ht := fun p hp => h p (List.mem_cons_of_mem _ hp)
    intro p hp
    unfold Table.put at hp
    split at hp
    · rename_i hn
      rcases List.mem_cons.mp hp with rfl | hp
      · exact hn ▸ ha
      · exact ht p hp
    · rcases List.mem_cons.mp hp with rfl | hp
      · exact h _ List.mem_cons_self
      · exact ih ht p hp

theorem mem_put (hn : t.names.Nodup) (h : (x, b) ∈ t.put name a) :
    (x = name ∧ b = a) ∨ (x ≠ name ∧ (x, b) ∈ t) := by
  have hx := get?_of_mem (nodup_put hn name a) h
  rw [get?_put] at hx
  by_cases he : name = x
  · simp_all
  · rw [if_neg he] at hx
    exact .inr ⟨Ne.symm he, mem_of_get? hx⟩

theorem get?_perm {u : Table α} (hn : t.names.Nodup) (h : u.Perm t) (x : String) :
    u.get? x = t.get? x := by
  have hu : u.names.Nodup := (h.map _).nodup_iff.mpr hn
  cases ht : t.get? x with
  | some a => exact get?_of_mem hu (h.mem_iff.mpr (mem_of_get? ht))
  | none =>
    rw [get?_eq_none] at ht ⊢
    exact fun hx => ht ((h.map _).mem_iff.mp hx)

theorem get?_map_snd {β : Type} (f : α → β) (t : Table α) (x : String) :
    Table.get? (t.map fun p => (p.1, f p.2)) x = (t.get? x).map f := by
  induction t with
  | nil => rfl
  | cons p t ih =>
    simp only [List.map_cons, Table.get?]
    split
    · rfl
    · exact ih

theorem put_map_snd {β : Type} (f : α → β) (t : Table α) (x : String) (a : α) :
    Table.put (t.map fun p => (p.1, f p.2)) x (f a) = (t.put x a).map fun p => (p.1, f p.2) := by
  induction t with
  | nil => rfl
  | cons p t ih =>
    simp only [List.map_cons, Table.put, ih]
    split <;> rfl

end Table

end LazySession
