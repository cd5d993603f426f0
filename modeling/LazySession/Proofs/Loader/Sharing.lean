import LazySession.Loader
import LazySession.Proofs.Table

/-!
# Which entries a loader shares with the one it was made from

`Loader.renews_extend`: a loader with further modules gives fresh entries to a set of names and
shares all others. No module outside of the set imports one inside of it.
-/

namespace LazySession

namespace Loader

/-! ## The names that are reached -/

/-- No module outside of `names` imports one of them. -/
def Closed (codes : List ModuleCode) (names : List String) : Prop :=
  ∀ c ∈ codes, c.name ∉ names → ∀ i ∈ c.imports, i ∉ names

section
variable {codes : List ModuleCode} {names : List String}

theorem subset_spread (codes : List ModuleCode) :
    ∀ names : List String, names ⊆ spread codes names := by
  induction codes with
  | nil => exact fun names => List.Subset.refl names
  | cons c codes ih =>
    intro names
    refine List.Subset.trans ?_ (ih _)
    simp only
    split
    · exact List.subset_append_left _ _
    · exact List.Subset.refl names

theorem subset_reach (codes : List ModuleCode) (rounds : Nat) :
    ∀ names : List String, names ⊆ reach codes rounds names := by
  induction rounds with
  | zero => exact fun names => List.Subset.refl names
  | succ rounds ih => exact fun names => List.Subset.trans (subset_spread codes names) (ih _)

theorem mem_spread {c : ModuleCode} {i : String} (hc : c ∈ codes) (hi : i ∈ c.imports) :
    ∀ {names : List String}, i ∈ names → c.name ∈ spread codes names := by
  induction codes with
  | nil => cases hc
  | cons d codes ih =>
    intro names hn
    rcases List.mem_cons.mp hc with rfl | hc
    · -- the module is taken in now unless it is there already
      refine subset_spread codes _ ?_
      have hany : c.imports.any names.contains = true :=
        List.any_eq_true.mpr ⟨i, hi, List.contains_iff_mem.mpr hn⟩
      by_cases hm : c.name ∈ names
      · simp [hm]
      · simp [hm, hany]
    · refine ih hc ?_
      simp only
      split
      · exact List.mem_append_left _ hn
      · exact hn

theorem mem_of_spread {x : String} : ∀ {names : List String}, x ∈ spread codes names →
    x ∈ names ∨ ∃ c ∈ codes, c.name = x ∧ c.imports ≠ [] := by
  induction codes with
  | nil => exact fun h => .inl h
  | cons c codes ih =>
    intro names h
    rcases ih h with h | ⟨d, hd, he⟩
    · simp only at h
      split at h
      · rename_i hc
        rcases List.mem_append.mp h with h | h
        · exact .inl h
        · refine .inr ⟨c, List.mem_cons_self, (List.mem_singleton.mp h).symm, fun hi => ?_⟩
          simp [hi] at hc
      · exact .inl h
    · exact .inr ⟨d, List.mem_cons_of_mem _ hd, he⟩

theorem mem_of_reach {x : String} (rounds : Nat) : ∀ {names : List String},
    x ∈ reach codes rounds names → x ∈ names ∨ ∃ c ∈ codes, c.name = x ∧ c.imports ≠ [] := by
  induction rounds with
  | zero => exact fun h => .inl h
  | succ rounds ih =>
    intro names h
    rcases ih h with h | h
    · exact mem_of_spread h
    · exact .inr h

/-- The modules whose names have not been reached. -/
def unreached (codes : List ModuleCode) (names : List String) : Nat :=
  codes.countP (fun c => !names.contains c.name)

theorem unreached_lt {names' : List String} (hsub : names ⊆ names') {c : ModuleCode}
    (hc : c ∈ codes) (hn : c.name ∉ names) (hn' : c.name ∈ names') :
    unreached codes names' < unreached codes names := by
  have hle : ∀ d ∈ codes, (!names'.contains d.name) = true → (!names.contains d.name) = true := by
    intro d _ hd
    simp only [Bool.not_eq_true', List.contains_eq_mem, decide_eq_false_iff_not] at hd ⊢
    exact fun hm => hd (hsub hm)
  unfold unreached
  induction codes with
  | nil => cases hc
  | cons d codes ih =>
    rw [List.countP_cons, List.countP_cons]
    have hle' : codes.countP (fun c => !names'.contains c.name) ≤
        codes.countP (fun c => !names.contains c.name) :=
      List.countP_mono_left fun e he => hle e (List.mem_cons_of_mem _ he)
    rcases List.mem_cons.mp hc with rfl | hc
    · simp only [List.contains_eq_mem, hn', hn, decide_true, decide_false, Bool.not_true,
        Bool.not_false, if_true, Bool.false_eq_true, if_false] at hle' ⊢
      omega
    · have := ih hc fun e he => hle e (List.mem_cons_of_mem _ he)
      have hd := hle d List.mem_cons_self
      split <;> split <;> first | omega | simp_all

theorem unreached_spread_lt (h : ¬ Closed codes names) :
    unreached codes (spread codes names) < unreached codes names := by
  simp only [Closed, Classical.not_forall, Classical.not_not] at h
  obtain ⟨c, hc, hn, i, hi, hin⟩ := h
  exact unreached_lt (subset_spread codes names) hc hn (mem_spread hc hi hin)

theorem spread_of_closed (h : Closed codes names) : spread codes names = names := by
  have step : ∀ ds : List ModuleCode, ds ⊆ codes → spread ds names = names := by
    intro ds
    induction ds with
    | nil => exact fun _ => rfl
    | cons d ds ih =>
      intro hs
      unfold spread
      rw [List.foldl_cons, if_neg]
      · exact ih fun e he => hs (List.mem_cons_of_mem _ he)
      · simp only [Bool.and_eq_true, Bool.not_eq_true', List.any_eq_true, List.contains_eq_mem,
          decide_eq_false_iff_not, decide_eq_true_eq, not_and]
        rintro hn ⟨i, hi, hin⟩
        exact h d (hs List.mem_cons_self) hn i hi hin
  exact step codes (List.Subset.refl _)

theorem reach_of_closed (h : Closed codes names) (rounds : Nat) :
    reach codes rounds names = names := by
  induction rounds with
  | zero => rfl
  | succ rounds ih => rw [reach, spread_of_closed h, ih]

theorem closed_of_unreached (h : unreached codes names = 0) : Closed codes names := by
  intro c hc hn
  have := List.countP_eq_zero.mp h c hc
  simp only [Bool.not_eq_true', List.contains_eq_mem, decide_eq_false_iff_not,
    Classical.not_not] at this
  exact absurd this hn

theorem closed_reach (rounds : Nat) : ∀ {names : List String}, unreached codes names ≤ rounds →
    Closed codes (reach codes rounds names) := by
  induction rounds with
  | zero => intro names hle; exact closed_of_unreached (Nat.le_zero.mp hle)
  | succ rounds ih =>
    intro names hle
    by_cases h : Closed codes names
    · rw [reach_of_closed h]
      exact h
    · have := unreached_spread_lt h
      exact ih (by omega)

theorem reach_subset {all : List String} (h : Closed codes all) (rounds : Nat) :
    ∀ {names : List String}, names ⊆ all → reach codes rounds names ⊆ all := by
  have step : ∀ (ds : List ModuleCode), ds ⊆ codes → ∀ names : List String, names ⊆ all →
      spread ds names ⊆ all := by
    intro ds
    induction ds with
    | nil => intro _ names hn; exact hn
    | cons d ds ih =>
      intro hds names hn
      rw [List.cons_subset] at hds
      refine ih hds.2 _ ?_
      simp only
      split
      · rename_i hd
        simp only [Bool.and_eq_true, List.any_eq_true, List.contains_eq_mem, decide_eq_true_eq] at hd
        obtain ⟨-, i, hi, hin⟩ := hd
        refine List.append_subset.mpr ⟨hn, List.cons_subset.mpr ⟨?_, List.nil_subset _⟩⟩
        exact Classical.byContradiction fun hnot => h d hds.1 hnot i hi (hn hin)
      · exact hn
  induction rounds with
  | zero => intro names hn; exact hn
  | succ rounds ih =>
    intro names hn
    exact ih (step codes (List.Subset.refl _) names hn)

theorem closed_reach_length (codes : List ModuleCode) (names : List String) :
    Closed codes (reach codes codes.length names) :=
  closed_reach _ List.countP_le_length

/-- The modules that are reached from `fresh` and are not among them. -/
def stale (codes : List ModuleCode) (fresh : List String) : List ModuleCode :=
  codes.filter fun c => ((reach codes codes.length fresh).filter (!fresh.contains ·)).contains c.name

theorem mem_stale {fresh : List String} {c : ModuleCode} : c ∈ stale codes fresh ↔
    c ∈ codes ∧ c.name ∈ reach codes codes.length fresh ∧ c.name ∉ fresh := by
  simp [stale]

theorem mem_append_stale {fresh : List String} {k : String} :
    k ∈ fresh ++ (stale codes fresh).map (·.name) ↔ k ∈ reach codes codes.length fresh := by
  rw [List.mem_append, List.mem_map]
  constructor
  · rintro (h | ⟨c, hc, rfl⟩)
    · exact subset_reach _ _ _ h
    · exact (mem_stale.mp hc).2.1
  · intro h
    by_cases hm : k ∈ fresh
    · exact .inl hm
    · obtain ⟨c, hc, rfl, -⟩ := (mem_of_reach _ h).resolve_left hm
      exact .inr ⟨c, mem_stale.mpr ⟨hc, h, hm⟩, rfl⟩

end

/-! ## Fresh entries -/

/-- Every name is there once, and its entry is that of a module of this name. -/
structure Keyed (l : Loader) (w : World) : Prop where
  nodup : l.modules.names.Nodup
  entry : ∀ p ∈ l.modules, ∃ e, w.entries[p.2]? = some e ∧ e.code.name = p.1

theorem keyed_empty (w : World) : empty.Keyed w where
  nodup := List.nodup_nil
  entry _ h := nomatch h

/-- The names in `fresh` get new entries with code from `mods`; all other entries are shared. -/
structure Renews (mods : List ModuleCode) (fresh : List String) (l : Loader) (w : World)
    (l' : Loader) (w' : World) : Prop where
  world : w' = { w with entries := w'.entries }
  size : w.entries.size ≤ w'.entries.size
  old : ∀ id < w.entries.size, w'.entries[id]? = w.entries[id]?
  unlinked : ∀ (id : EntryId) (e : Entry), w.entries.size ≤ id → w'.entries[id]? = some e →
    e.linked = none
  keyed : l'.Keyed w'
  kept : ∀ k, k ∉ fresh → l'.modules.get? k = l.modules.get? k
  new : ∀ k ∈ fresh, ∃ id code, l'.modules.get? k = some id ∧ w.entries.size ≤ id ∧
    w'.entries[id]? = some ⟨code, none⟩ ∧ code ∈ mods ∧ code.name = k

section
variable {l l' l'' : Loader} {w w' w'' : World} {mods mods' : List ModuleCode}
variable {fresh fresh' : List String}

theorem Keyed.get? (hk : l.Keyed w) {k : String} {id : EntryId} (h : l.modules.get? k = some id) :
    ∃ e, w.entries[id]? = some e ∧ e.code.name = k :=
  hk.entry _ (Table.mem_of_get? h)

theorem Renews.refl (hk : l.Keyed w) : Renews [] [] l w l w where
  world := rfl
  size := Nat.le_refl _
  old _ _ := rfl
  unlinked _ _ hid he := absurd (Array.getElem?_eq_some_iff.mp he).1 (Nat.not_lt.mpr hid)
  keyed := hk
  kept _ _ := rfl
  new _ h := nomatch h

theorem Renews.trans (r : Renews mods fresh l w l' w') (r' : Renews mods' fresh' l' w' l'' w'') :
    Renews (mods ++ mods') (fresh ++ fresh') l w l'' w'' where
  world := by rw [r'.world, r.world]
  size := Nat.le_trans r.size r'.size
  old id h := by rw [r'.old id (Nat.lt_of_lt_of_le h r.size), r.old id h]
  unlinked id e hid he := by
    by_cases hlt : id < w'.entries.size
    · rw [r'.old id hlt] at he
      exact r.unlinked id e hid he
    · exact r'.unlinked id e (Nat.not_lt.mp hlt) he
  keyed := r'.keyed
  kept k h := by
    rw [List.mem_append, not_or] at h
    rw [r'.kept k h.2, r.kept k h.1]
  new k h := by
    by_cases hk : k ∈ fresh'
    · obtain ⟨id, code, hl, hid, he, hm, hn⟩ := r'.new k hk
      exact ⟨id, code, hl, Nat.le_trans r.size hid, he, List.mem_append_right _ hm, hn⟩
    · have hk' : k ∈ fresh := by simpa [hk] using h
      obtain ⟨id, code, hl, hid, he, hm, hn⟩ := r.new k hk'
      refine ⟨id, code, ?_, hid, ?_, List.mem_append_left _ hm, hn⟩
      · rw [r'.kept k hk, hl]
      · rw [r'.old id (Array.getElem?_eq_some_iff.mp he).1, he]

theorem Renews.code? (r : Renews mods fresh l w l' w') (hk : l.Keyed w) (k : String)
    (h : k ∉ fresh) : l'.code? w' k = l.code? w k := by
  unfold Loader.code?
  rw [r.kept k h]
  cases hg : l.modules.get? k with
  | none => rfl
  | some id =>
    obtain ⟨e, he, _⟩ := hk.get? hg
    simp only [Option.bind_some]
    rw [r.old id (Array.getElem?_eq_some_iff.mp he).1]

theorem renews_refresh_one (hk : l.Keyed w) (c : ModuleCode) :
    Renews [c] [c.name] l w (refresh (l, w) c).1 (refresh (l, w) c).2 where
  world := rfl
  size := by simp [refresh]
  old id h := by
    simp only [refresh, Array.getElem?_push]
    rw [if_neg (by omega)]
  unlinked id e hid he := by
    simp only [refresh, Array.getElem?_push] at he
    split at he
    · cases he
      rfl
    · have := (Array.getElem?_eq_some_iff.mp he).1
      omega
  keyed := by
    refine ⟨Table.nodup_put hk.nodup _ _, fun p hp => ?_⟩
    simp only [refresh, Array.getElem?_push] at hp ⊢
    rcases Table.mem_put hk.nodup hp with ⟨hn, hid⟩ | ⟨_, hm⟩
    · exact ⟨⟨c, none⟩, by rw [if_pos hid], hn.symm⟩
    · obtain ⟨e, he, hn⟩ := hk.entry _ hm
      have := (Array.getElem?_eq_some_iff.mp he).1
      exact ⟨e, by rw [if_neg (by omega)]; exact he, hn⟩
  kept k h := by
    have hne : ¬ c.name = k := fun he => h (List.mem_singleton.mpr he.symm)
    simp only [refresh, Table.get?_put, if_neg hne]
  new k h := by
    obtain rfl := List.mem_singleton.mp h
    refine ⟨w.entries.size, c, ?_, Nat.le_refl _, ?_, List.mem_singleton_self _, rfl⟩
    · simp [refresh, Table.get?_put]
    · simp [refresh]

theorem renews_refresh (mods : List ModuleCode) : ∀ {l : Loader} {w : World}, l.Keyed w →
    Renews mods (mods.map (·.name)) l w (mods.foldl refresh (l, w)).1
      (mods.foldl refresh (l, w)).2 := by
  induction mods with
  | nil => exact fun hk => .refl hk
  | cons c mods ih =>
    intro l w hk
    have r := renews_refresh_one hk c
    exact r.trans (ih r.keyed)

/-- The code of every module of a loader, in the order of the loader. -/
def codes (l : Loader) (w : World) : List ModuleCode :=
  l.modules.filterMap fun (_, id) => w.entries[id]?.map (·.code)

theorem mem_codes (hk : l.Keyed w) {c : ModuleCode} :
    c ∈ l.codes w ↔ l.code? w c.name = some c := by
  simp only [codes, List.mem_filterMap, Option.map_eq_some_iff, code?, Option.bind_eq_some_iff]
  constructor
  · rintro ⟨p, hp, e, he, rfl⟩
    obtain ⟨e', he', hn⟩ := hk.entry _ hp
    obtain rfl : e' = e := by simpa [he] using he'.symm
    exact ⟨p.2, hn ▸ Table.get?_of_mem hk.nodup hp, e', he, rfl⟩
  · rintro ⟨id, hid, e, he, rfl⟩
    exact ⟨_, Table.mem_of_get? hid, e, he, rfl⟩

theorem Keyed.name_of_code? (hk : l.Keyed w) {k : String} {c : ModuleCode}
    (h : l.code? w k = some c) : c.name = k := by
  obtain ⟨id, hid, he⟩ := Option.bind_eq_some_iff.mp h
  obtain ⟨e, he', hn⟩ := hk.get? hid
  simp only [he', Option.map_some, Option.some.injEq] at he
  exact he ▸ hn

theorem names_codes (hk : l.Keyed w) : (l.codes w).map (·.name) = l.modules.names := by
  have step : ∀ t : Table EntryId, (∀ p ∈ t, ∃ e, w.entries[p.2]? = some e ∧ e.code.name = p.1) →
      (t.filterMap fun (_, id) => w.entries[id]?.map (·.code)).map (·.name) = t.names := by
    intro t
    induction t with
    | nil => intro _; rfl
    | cons p t ih =>
      intro h
      rw [List.forall_mem_cons] at h
      obtain ⟨e, he, hn⟩ := h.1
      have ih := ih h.2
      simp only [Table.names] at ih
      simp [he, hn, ih, Table.names]
  exact step l.modules hk.entry

theorem extend_eq (l : Loader) (mods : List ModuleCode) (w : World) : l.extend mods w =
    if mods = [] then (l, w)
    else (stale ((mods.foldl refresh (l, w)).1.codes (mods.foldl refresh (l, w)).2)
      (mods.map (·.name))).foldl refresh (mods.foldl refresh (l, w)) := by
  simp only [extend, List.isEmpty_iff]
  rfl

/-- The names that get fresh entries are those of the new modules and of modules that import one
of these. No other module imports a name with a fresh entry, and none that imports nothing gets
one. -/
theorem renews_extend (hk : l.Keyed w) (mods : List ModuleCode) :
    ∃ codes fresh, Renews codes fresh l w (l.extend mods w).1 (l.extend mods w).2 ∧
      (∀ c ∈ mods, c.name ∈ fresh) ∧
      (∀ c ∈ codes, c ∈ mods ∨
        c.name ∉ mods.map (·.name) ∧ l.code? w c.name = some c ∧ c.imports ≠ []) ∧
      ∀ k c, k ∉ fresh → l.code? w k = some c → ∀ i ∈ c.imports, i ∉ fresh := by
  rw [extend_eq]
  split
  · rename_i hm
    subst hm
    exact ⟨[], [], .refl hk, nofun, nofun, fun _ _ _ _ _ _ => nofun⟩
  · have r := renews_refresh mods hk
    generalize mods.foldl refresh (l, w) = p at r ⊢
    obtain ⟨l₁, w₁⟩ := p
    simp only at r ⊢
    have hcode := r.code? hk
    refine ⟨_, _, r.trans (renews_refresh (stale (l₁.codes w₁) (mods.map (·.name))) r.keyed), ?_,
      ?_, ?_⟩
    · exact fun c hc => List.mem_append_left _ (List.mem_map_of_mem hc)
    · intro c hc
      rcases List.mem_append.mp hc with hc | hc
      · exact .inl hc
      · obtain ⟨hc, hn, hm⟩ := mem_stale.mp hc
        rw [mem_codes r.keyed] at hc
        refine .inr ⟨hm, by rw [← hcode _ hm]; exact hc, ?_⟩
        obtain ⟨d, hd, he, himports⟩ := (mem_of_reach _ hn).resolve_left hm
        have hcode' := (mem_codes r.keyed).mp hd
        rw [he, hc] at hcode'
        cases hcode'
        exact himports
    · intro k c hkf hc i hi
      rw [mem_append_stale] at hkf ⊢
      have hm : k ∉ mods.map (·.name) := fun h => hkf (subset_reach _ _ _ h)
      rw [← hcode k hm] at hc
      have hn := r.keyed.name_of_code? hc
      subst hn
      exact closed_reach_length _ _ c ((mem_codes r.keyed).mpr hc) hkf i hi

end

end Loader

end LazySession
