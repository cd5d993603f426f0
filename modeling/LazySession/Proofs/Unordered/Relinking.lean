import LazySession.Proofs.Loader.Coherence
import LazySession.Proofs.Scope.Accepted
import LazySession.Proofs.Unordered.Marking

/-!
# What is linked again

Passes over the modules go on until one marks nothing, and nothing else bounds how many there are:
`Unordered.Loops`. `Unordered.loops_relink`: they come to an end in whatever order the modules are
gone through, and the modules that then have fresh entries are those that import a new one, directly
or not.
-/

namespace LazySession

namespace Loader

/-- The name has an entry that was not there in `w` and that is not linked. -/
def Renewed (l : Loader) (w w' : World) (k : String) : Prop :=
  ∃ id code, l.modules.get? k = some id ∧ w.entries.size ≤ id ∧ w'.entries[id]? = some ⟨code, none⟩

/-- The module is one of `mods` or imports one of them, directly or not. -/
def Meets (l : Loader) (w : World) (mods : List ModuleCode) (k : String) : Prop :=
  ∃ c ∈ mods, Relation.ReflTransGen (l.Uses w) k c.name

/-- `l'` is the loader `l` with `mods` in place of the modules of their names. All that has to be
linked again, and nothing else, has a fresh entry. -/
structure Relinks (mods : List ModuleCode) (l : Loader) (w : World) (l' : Loader) (w' : World) :
    Prop where
  world : w' = { w with entries := w'.entries }
  old : ∀ id < w.entries.size, w'.entries[id]? = w.entries[id]?
  keyed : l'.Keyed w'
  renewed : ∀ k, l'.Renewed w w' k ↔ l'.Meets w' mods k
  kept : ∀ k, ¬ l'.Meets w' mods k → l'.modules.get? k = l.modules.get? k
  code : ∀ k, l'.code? w' k = (mods.reverse.find? (·.name == k)).or (l.code? w k)
  names : ∀ k, k ∈ l'.names ↔ k ∈ l.names ∨ k ∈ mods.map (·.name)

section
variable {l : Loader} {w : World}

theorem mem_names (hk : l.Keyed w) {k : String} : k ∈ l.names ↔ (l.code? w k).isSome := by
  rw [names, Table.sortedNames, List.mem_mergeSort, ← Table.get?_isSome, code?]
  cases hg : l.modules.get? k with
  | none => simp
  | some id =>
    obtain ⟨e, he, _⟩ := hk.get? hg
    simp [he]

/-- Every name of a set of modules that is closed, and no larger than it has to be, leads to one of
`mods`, and no other name does. -/
theorem meets_iff (hk : l.Keyed w) {mods : List ModuleCode} {names : List String}
    (hsub : mods.map (·.name) ⊆ names) (hclosed : Closed (l.codes w) names)
    (hneeded : ∀ all, Closed (l.codes w) all → mods.map (·.name) ⊆ all → names ⊆ all) (k : String) :
    l.Meets w mods k ↔ k ∈ names := by
  -- a module that imports one of the names has one of them
  have hstep : ∀ {m n}, l.Uses w m n → n ∈ names → m ∈ names := by
    intro m n hu hn
    obtain ⟨c, hc, hi⟩ := hu
    have hname := hk.name_of_code? hc
    subst hname
    by_cases hm : c.name ∈ names
    · exact hm
    · exact absurd hn (hclosed c ((mem_codes hk).mpr hc) hm n hi)
  constructor
  · intro h
    obtain ⟨c, hc, hreach⟩ := h
    have hc' : c.name ∈ names := hsub (List.mem_map_of_mem hc)
    induction hreach using Relation.ReflTransGen.head_induction_on with
    | refl => exact hc'
    | head hu _ ih => exact hstep hu ih
  · -- those that lead to one of `mods` are closed themselves, so they are all
    intro h
    classical
    have hall : Closed (l.codes w) (names.filter (l.Meets w mods ·)) := by
      intro c hc hout i hi hin
      simp only [List.mem_filter, decide_eq_true_eq] at hout hin
      have hu : l.Uses w c.name i := ⟨c, (mem_codes hk).mp hc, hi⟩
      obtain ⟨hin, d, hd, hreach⟩ := hin
      exact hout ⟨hstep hu hin, d, hd, .head hu hreach⟩
    have hmods : mods.map (·.name) ⊆ names.filter (l.Meets w mods ·) := by
      intro n hn
      obtain ⟨c, hc, rfl⟩ := List.mem_map.mp hn
      simp only [List.mem_filter, decide_eq_true_eq]
      exact ⟨hsub hn, c, hc, .refl⟩
    have := hneeded _ hall hmods h
    simp only [List.mem_filter, decide_eq_true_eq] at this
    exact this.2

/-- Fresh entries for `mods` and then for modules `stale` that are there make such a loader, if the
names that got one are the least closed set around those of `mods`. -/
theorem relinks_refresh (hk : l.Keyed w) {mods stale : List ModuleCode} {s : Loader × World}
    (hs : mods.foldl refresh (l, w) = s) (hstale : ∀ c ∈ stale, s.1.code? s.2 c.name = some c)
    (hclosed : Closed (s.1.codes s.2) (mods.map (·.name) ++ stale.map (·.name)))
    (hneeded : ∀ all, Closed (s.1.codes s.2) all → mods.map (·.name) ⊆ all →
      mods.map (·.name) ++ stale.map (·.name) ⊆ all) :
    Relinks mods l w (stale.foldl refresh s).1 (stale.foldl refresh s).2 := by
  have r := renews_refresh mods hk
  have hlast := fun k => code?_foldl_refresh mods k hk
  simp only [ModuleCode.among] at hlast
  rw [hs] at r hlast
  have r' := r.trans (renews_refresh stale r.keyed)
  obtain ⟨-, hcode⟩ := Unordered.keeps_foldl_refresh stale r.keyed hstale
  -- with a fresh entry, a module imports what it did
  have huses : (stale.foldl refresh s).1.Uses (stale.foldl refresh s).2 = s.1.Uses s.2 := by
    funext m n
    simp only [Uses, hcode]
  have hmeets : ∀ k, (stale.foldl refresh s).1.Meets (stale.foldl refresh s).2 mods k ↔
      k ∈ mods.map (·.name) ++ stale.map (·.name) := by
    intro k
    rw [← meets_iff r.keyed (List.subset_append_left _ _) hclosed hneeded]
    simp only [Meets, huses]
  refine ⟨r'.world, r'.old, r'.keyed, fun k => ?_, fun k hkm => ?_, fun k => ?_, fun k => ?_⟩
  · rw [hmeets]
    constructor
    · intro h
      obtain ⟨id, code, hid, hle, -⟩ := h
      by_contra hout
      rw [r'.kept k hout] at hid
      obtain ⟨e, he, -⟩ := hk.get? hid
      exact absurd (Array.getElem?_eq_some_iff.mp he).1 (Nat.not_lt.mpr hle)
    · intro h
      obtain ⟨id, code, hid, hle, he, -⟩ := r'.new k h
      exact ⟨id, code, hid, hle, he⟩
  · rw [hmeets] at hkm
    exact r'.kept k hkm
  · rw [hcode, hlast]
  · rw [mem_names r'.keyed, mem_names hk, hcode, hlast, Option.isSome_or, Bool.or_eq_true, or_comm]
    simp [List.find?_isSome]

theorem relinks_extend (hk : l.Keyed w) (mods : List ModuleCode) :
    Relinks mods l w (l.extend mods w).1 (l.extend mods w).2 := by
  rw [extend_eq]
  by_cases hm : mods = []
  · subst hm
    have hnone : ([] : List ModuleCode).foldl refresh (l, w) = (l, w) := rfl
    have hstale : ∀ c ∈ ([] : List ModuleCode), l.code? w c.name = some c := nofun
    simpa using relinks_refresh hk hnone hstale (fun _ _ _ _ _ => nofun) fun _ _ _ => nofun
  · rw [if_neg hm]
    have r := renews_refresh mods hk
    refine relinks_refresh hk rfl (fun c hc => (mem_codes r.keyed).mp (mem_stale.mp hc).1) ?_ ?_
    · intro c hc hn i hi
      rw [mem_append_stale] at hn ⊢
      exact closed_reach_length _ _ c hc hn i hi
    · intro all hall hsub k hkm
      exact reach_subset hall _ hsub (mem_append_stale.mp hkm)

end

end Loader

namespace Unordered

open Loader

/-! ## The passes -/

/-- Where the passes begin. -/
def start (l : Loader) (mods : List ModuleCode) (w : World) : Marking :=
  ⟨mods.foldl refresh (l, w), mods.map (·.name)⟩

/-- A pass that marks something, so that there is another one. -/
def Again (m' m : Marking) : Prop :=
  m' ∈ (pass m).run ∧ m'.dirty.length ≠ m.dirty.length

/-- Passes are made until one marks nothing. -/
inductive Loops : Marking → Marking → Prop
  | last {m m' : Marking} (h : m' ∈ (pass m).run) (hlen : m'.dirty.length = m.dirty.length) :
    Loops m m'
  | again {m m' m'' : Marking} (h : Again m' m) (rest : Loops m' m'') : Loops m m''

section
variable {s : Loader × World} {fresh : List String} {order : List ModuleCode} {m m' : Marking}

theorem Marked.again (h : Marked s fresh order m) (hk : s.1.Keyed s.2) (ha : Again m' m) :
    (∃ order', Marked s fresh order' m') ∧
      unreached (s.1.codes s.2) m'.dirty < unreached (s.1.codes s.2) m.dirty := by
  obtain ⟨more, hm, hhead, -⟩ := (h.pass hk).2 m' ha.1
  cases more with
  | nil =>
    refine absurd ?_ ha.2
    rw [hm.dirty, h.dirty, List.append_nil]
  | cons c more => exact ⟨⟨_, hm⟩, h.unreached_lt hk hm (hhead c rfl)⟩

theorem Marked.last (h : Marked s fresh order m) (hk : s.1.Keyed s.2) (hp : m' ∈ (Unordered.pass m).run)
    (hlen : m'.dirty.length = m.dirty.length) :
    (∃ order', Marked s fresh order' m') ∧ Closed (s.1.codes s.2) m'.dirty := by
  obtain ⟨more, hm, -, hnone⟩ := (h.pass hk).2 m' hp
  have hdirty : m'.dirty = m.dirty ++ more.map (·.name) := by
    rw [hm.dirty, h.dirty]
    simp
  obtain rfl : more = [] := by simpa [hdirty] using hlen
  refine ⟨⟨_, hm⟩, ?_⟩
  rw [hdirty, List.map_nil, List.append_nil]
  exact hnone rfl

theorem Marked.acc (hk : s.1.Keyed s.2) (n : Nat) : ∀ {m : Marking} {order : List ModuleCode},
    Marked s fresh order m → unreached (s.1.codes s.2) m.dirty ≤ n → Acc Again m := by
  induction n with
  | zero =>
    intro m order h hle
    refine ⟨_, fun m' ha => ?_⟩
    have := (h.again hk ha).2
    omega
  | succ n ih =>
    intro m order h hle
    refine ⟨_, fun m' ha => ?_⟩
    obtain ⟨⟨order', h'⟩, hlt⟩ := h.again hk ha
    exact ih h' (by omega)

theorem Marked.loops (h : Marked s fresh order m) (hk : s.1.Keyed s.2) (hl : Loops m m') :
    (∃ order', Marked s fresh order' m') ∧ Closed (s.1.codes s.2) m'.dirty := by
  induction hl generalizing order with
  | last hp hlen => exact h.last hk hp hlen
  | again ha _ ih =>
    obtain ⟨⟨order', h'⟩, -⟩ := h.again hk ha
    exact ih h'

end

theorem exists_loops {m : Marking} (h : Acc Again m) : ∃ m', Loops m m' := by
  induction h with
  | intro m _ ih =>
    have hpass : m.state.1.modules.foldl visit m ∈ (pass m).run :=
      mem_bind.mpr ⟨_, .refl _, mem_pure.mpr rfl⟩
    by_cases hlen : (m.state.1.modules.foldl visit m).dirty.length = m.dirty.length
    · exact ⟨_, .last hpass hlen⟩
    · obtain ⟨m', hm'⟩ := ih _ ⟨hpass, hlen⟩
      exact ⟨m', .again ⟨hpass, hlen⟩ hm'⟩

/-- Whatever the modules of a loader import, and in whatever order they are gone through, the passes
end. The loader that is left, like that of `Loader.extend`, has fresh entries for just the modules that
lead to one of `mods` over what they import, and shares all others. -/
theorem loops_relink {l : Loader} {w : World} (hk : l.Keyed w) (mods : List ModuleCode) :
    Acc Again (start l mods w) ∧ (∃ m, Loops (start l mods w) m) ∧
      (∀ m, Loops (start l mods w) m → Relinks mods l w m.state.1 m.state.2) ∧
      Relinks mods l w (l.extend mods w).1 (l.extend mods w).2 := by
  have hks := (renews_refresh mods hk).keyed
  have hstart : Marked (mods.foldl refresh (l, w)) (mods.map (·.name)) [] (start l mods w) :=
    ⟨rfl, by simp [start], nofun, List.nodup_nil, nofun, fun _ _ h => h⟩
  have hacc := Marked.acc hks _ hstart (Nat.le_refl _)
  refine ⟨hacc, exists_loops hacc, fun m hm => ?_, relinks_extend hk mods⟩
  obtain ⟨⟨order, hmarked⟩, hclosed⟩ := hstart.loops hks hm
  have hneeded := hmarked.needed
  rw [hmarked.dirty] at hclosed hneeded
  rw [hmarked.state]
  exact relinks_refresh hk rfl hmarked.known hclosed hneeded

/-- Modules that import each other, one that is not there and one that stays: `B` is replaced
twice. -/
theorem loops_relink_ring : ∃ (l : Loader) (w : World) (mods : List ModuleCode), l.Keyed w ∧
    mods.map (·.name) = ["B", "B"] ∧ l.modules.names = ["A", "B", "C", "D"] ∧
    (∃ m, Loops (start l mods w) m) ∧
    (∀ m, Loops (start l mods w) m → Relinks mods l w m.state.1 m.state.2) ∧
    (l.extend mods w).1.modules.get? "A" ≠ l.modules.get? "A" ∧
    (l.extend mods w).1.modules.get? "C" = l.modules.get? "C" := by
  obtain ⟨_, _, r, _⟩ := renews_extend (keyed_empty { cache := .disabled })
    [⟨"A", ["B", "Z"], []⟩, ⟨"B", ["A"], []⟩, ⟨"C", [], []⟩, ⟨"D", ["C", "A"], []⟩]
  obtain ⟨-, hends, hall, -⟩ := loops_relink r.keyed [⟨"B", [], []⟩, ⟨"B", ["A", "C"], []⟩]
  refine ⟨_, _, _, r.keyed, rfl, ?_, hends, hall, ?_, ?_⟩
  all_goals decide +kernel

end Unordered

end LazySession
