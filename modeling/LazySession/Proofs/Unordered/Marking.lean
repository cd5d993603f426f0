import LazySession.Proofs.Unordered.Alike
import LazySession.Proofs.Unordered.Check
import Mathlib.Data.List.Nodup

/-!
# Marking modules in any order

A loader with further modules gives fresh entries to the modules that import a replaced one. They
are marked in passes over all modules, each pass in any order, until a pass marks nothing:
`Unordered.extend`. The set that is marked is the least closed one, and so every order leads to the
loader that `Loader.extend` makes, up to the numbers of its fresh entries: `Unordered.ends_extend`.
-/

namespace LazySession

/-! ## The order of fresh entries -/

theorem Table.put_comm {α : Type} {x y : String} (hne : x ≠ y) (u v : α) (t : Table α) :
    x ∈ t.names → y ∈ t.names → (t.put x u).put y v = (t.put y v).put x u := by
  induction t with
  | nil => intro hx; cases hx
  | cons p t ih =>
    obtain ⟨n, a⟩ := p
    intro hx hy
    by_cases hnx : n = x
    · subst hnx
      simp [put, hne]
    · by_cases hny : n = y
      · subst hny
        simp [put, hnx]
      · have hx' : x ∈ names t := by simpa [names, Ne.symm hnx] using hx
        have hy' : y ∈ names t := by simpa [names, Ne.symm hny] using hy
        simp [put, hnx, hny, ih hx' hy']

namespace Loader

theorem rename_of_fixed {π : Equiv.Perm EntryId} {l : Loader} (h : ∀ p ∈ l.modules, π p.2 = p.2) :
    l.rename π = l := by
  obtain ⟨modules⟩ := l
  simp only [rename, Loader.mk.injEq]
  refine (List.map_congr_left fun p hp => ?_).trans (List.map_id modules)
  rw [h p hp]
  rfl

variable {s : Loader × World}

/-- Two modules of a loader may get their fresh entries in either order. -/
theorem same_swap (hk : s.1.Keyed s.2) {a b : ModuleCode} (hab : a.name ≠ b.name)
    (ha : a.name ∈ s.1.modules.names) (hb : b.name ∈ s.1.modules.names) :
    Same (Equiv.swap s.2.entries.size (s.2.entries.size + 1)) (refresh (refresh s a) b)
      (refresh (refresh s b) a) := by
  obtain ⟨l, w⟩ := s
  simp only at hk ha hb ⊢
  have hother : ∀ id : Nat, id < w.entries.size ∨ w.entries.size + 1 < id →
      Equiv.swap w.entries.size (w.entries.size + 1) id = id := by
    intro id hid
    exact Equiv.swap_apply_of_ne_of_ne (by omega) (by omega)
  have hold : ∀ p ∈ l.modules, Equiv.swap w.entries.size (w.entries.size + 1) p.2 = p.2 := by
    intro p hp
    obtain ⟨e, he, _⟩ := hk.entry p hp
    exact hother p.2 (.inl (Array.getElem?_eq_some_iff.mp he).1)
  refine ⟨?_, .refl _, by simp [refresh], fun (id : Nat) => ?_, fun (id : Nat) h => ?_, rfl, rfl, rfl⟩
  · simp only [refresh, Array.size_push]
    rw [put_rename, put_rename, Equiv.swap_apply_left, Equiv.swap_apply_right,
      rename_of_fixed hold, Table.put_comm hab _ _ _ ha hb]
  · simp only [refresh, Array.getElem?_push, Array.size_push]
    by_cases h : id = w.entries.size
    · simp [h]
    · by_cases h' : id = w.entries.size + 1
      · simp [h']
      · rw [hother id (by omega)]
        simp [h, h']
  · simp only [refresh, Array.size_push] at h
    exact hother id (by omega)

/-- Modules of a loader may get their fresh entries in any order. -/
theorem same_foldl_refresh {cs cs' : List ModuleCode} (h : cs.Perm cs') :
    ∀ {s : Loader × World}, s.1.Keyed s.2 → (cs.map (·.name)).Nodup →
      (∀ c ∈ cs, c.name ∈ s.1.modules.names) →
      ∃ π : Equiv.Perm EntryId, (∀ id < s.2.entries.size, π id = id) ∧
        Same π (cs.foldl refresh s) (cs'.foldl refresh s) := by
  induction h with
  | nil => intro s _ _ _; exact ⟨.refl _, fun _ _ => rfl, .refl s⟩
  | cons c h ih =>
    intro s hk hn hc
    rw [List.map_cons, List.nodup_cons] at hn
    rw [List.forall_mem_cons] at hc
    have hnames : (refresh s c).1.modules.names = s.1.modules.names := by
      rw [refresh, Table.names_put, if_pos hc.1]
    obtain ⟨π, hfixed, hsame⟩ := ih (renews_refresh_one hk c).keyed hn.2 fun d hd => by
      rw [hnames]
      exact hc.2 d hd
    refine ⟨π, fun id hid => hfixed id ?_, hsame⟩
    exact Nat.lt_of_lt_of_le hid (renews_refresh_one hk c).size
  | swap a b cs =>
    intro s hk hn hc
    simp only [List.map_cons, List.nodup_cons, List.mem_cons, not_or] at hn
    rw [List.forall_mem_cons, List.forall_mem_cons] at hc
    refine ⟨_, fun (id : Nat) hid => Equiv.swap_apply_of_ne_of_ne ?_ ?_,
      (same_swap hk hn.1.1 hc.1 hc.2.1).foldl_refresh cs⟩
    · exact Nat.ne_of_lt hid
    · exact Nat.ne_of_lt (Nat.lt_succ_of_lt hid)
  | trans h _ ih ih' =>
    intro s hk hn hc
    obtain ⟨π, hfixed, hsame⟩ := ih hk hn hc
    obtain ⟨ρ, hfixed', hsame'⟩ := ih' hk ((h.map _).nodup_iff.mp hn) fun c hm =>
      hc c (h.mem_iff.mpr hm)
    refine ⟨π.trans ρ, fun id hid => ?_, hsame.trans hsame'⟩
    rw [Equiv.trans_apply, hfixed id hid, hfixed' id hid]

end Loader

namespace Unordered

/-! ## The steps -/

/-- A loader that is being made, and the names whose entries are fresh. -/
structure Marking where
  state : Loader × World
  dirty : List String

/-- A module that imports a marked one is marked and gets a fresh entry. -/
def visit (m : Marking) (p : String × EntryId) : Marking :=
  match m.state.2.entries[p.2]? with
  | none => m
  | some e =>
    if !m.dirty.contains p.1 && e.code.imports.any m.dirty.contains then
      ⟨Loader.refresh m.state e.code, m.dirty ++ [p.1]⟩
    else m

def pass (m : Marking) : SetM Marking := do
  return (← anyOrder m.state.1.modules).foldl visit m

/-- There are passes until one marks nothing. Every pass but the last marks a module, so the number
of modules bounds how many there are. -/
def mark : (rounds : Nat) → Marking → SetM Marking
  | 0, m => return m
  | rounds + 1, m => do
    let m' ← pass m
    if m'.dirty.length = m.dirty.length then return m' else mark rounds m'

def extend (l : Loader) (mods : List ModuleCode) (w : World) : SetM (Loader × World) :=
  if mods.isEmpty then return (l, w)
  else do
    let (l, w) := mods.foldl Loader.refresh (l, w)
    let m ← mark l.modules.length ⟨(l, w), mods.map (·.name)⟩
    return m.state

/-! ## What is marked -/

open Loader

/-- From `s` on, the modules in `order` have been marked, one after the other. All of them had to
be. -/
structure Marked (s : Loader × World) (fresh : List String) (order : List ModuleCode)
    (m : Marking) : Prop where
  state : m.state = order.foldl refresh s
  dirty : m.dirty = fresh ++ order.map (·.name)
  known : ∀ c ∈ order, s.1.code? s.2 c.name = some c
  nodup : (order.map (·.name)).Nodup
  new : ∀ c ∈ order, c.name ∉ fresh
  needed : ∀ all, Closed (s.1.codes s.2) all → fresh ⊆ all → m.dirty ⊆ all

variable {s : Loader × World} {fresh : List String} {order : List ModuleCode} {m : Marking}

theorem code?_refresh (hk : s.1.Keyed s.2) {c : ModuleCode} (hc : s.1.code? s.2 c.name = some c)
    (k : String) : (refresh s c).1.code? (refresh s c).2 k = s.1.code? s.2 k := by
  by_cases hkc : c.name = k
  · subst hkc
    rw [hc]
    simp [refresh, code?, Table.get?_put]
  · have hget : (refresh s c).1.modules.get? k = s.1.modules.get? k := by
      simp [refresh, Table.get?_put, hkc]
    rw [code?, code?, hget]
    refine Option.bind_congr fun id hid => ?_
    obtain ⟨e, he, _⟩ := hk.get? hid
    rw [(renews_refresh_one hk c).old id (Array.getElem?_eq_some_iff.mp he).1]

theorem keeps_foldl_refresh (cs : List ModuleCode) : ∀ {s : Loader × World}, s.1.Keyed s.2 →
    (∀ c ∈ cs, s.1.code? s.2 c.name = some c) →
    (cs.foldl refresh s).1.Keyed (cs.foldl refresh s).2 ∧
      (cs.foldl refresh s).1.code? (cs.foldl refresh s).2 = s.1.code? s.2 := by
  induction cs with
  | nil => intro s hk _; exact ⟨hk, rfl⟩
  | cons c cs ih =>
    intro s hk hcs
    rw [List.forall_mem_cons] at hcs
    have hcode := funext (code?_refresh hk hcs.1)
    obtain ⟨hk', hcode'⟩ := ih (renews_refresh_one hk c).keyed fun d hd => by
      rw [hcode]
      exact hcs.2 d hd
    exact ⟨hk', hcode'.trans hcode⟩

theorem Marked.keyed (h : Marked s fresh order m) (hk : s.1.Keyed s.2) :
    m.state.1.Keyed m.state.2 := by
  rw [h.state]
  exact (keeps_foldl_refresh order hk h.known).1

theorem Marked.code? (h : Marked s fresh order m) (hk : s.1.Keyed s.2) :
    m.state.1.code? m.state.2 = s.1.code? s.2 := by
  rw [h.state]
  exact (keeps_foldl_refresh order hk h.known).2

/-- The module at hand in a visit. -/
def At (s : Loader × World) (w : World) (p : String × EntryId) (c : ModuleCode) : Prop :=
  (∃ e, w.entries[p.2]? = some e ∧ e.code = c) ∧ s.1.code? s.2 p.1 = some c ∧ c.name = p.1

/-- A visit marks the module if it imports a marked one, and then had to. -/
theorem Marked.visit (h : Marked s fresh order m) (hk : s.1.Keyed s.2) {p : String × EntryId}
    {c : ModuleCode} (hp : At s m.state.2 p c) :
    (Unordered.visit m p = m ∧ (p.1 ∉ m.dirty → ∀ i ∈ c.imports, i ∉ m.dirty)) ∨
      (c.name ∉ m.dirty ∧ Marked s fresh (order ++ [c]) (Unordered.visit m p)) := by
  obtain ⟨⟨e, he, rfl⟩, hcode, hname⟩ := hp
  simp only [Unordered.visit, he]
  split
  · rename_i hv
    simp only [Bool.and_eq_true, Bool.not_eq_true', List.contains_eq_mem, decide_eq_false_iff_not,
      List.any_eq_true, decide_eq_true_eq] at hv
    obtain ⟨hnot, i, hi, hin⟩ := hv
    rw [← hname] at hnot hcode ⊢
    refine .inr ⟨hnot, ⟨?_, ?_, ?_, ?_, ?_, ?_⟩⟩
    · rw [List.foldl_append, ← h.state]
      rfl
    · simp [h.dirty]
    · exact List.forall_mem_append.mpr ⟨h.known, List.forall_mem_singleton.mpr hcode⟩
    · rw [h.dirty, List.mem_append, not_or] at hnot
      rw [List.map_append, List.map_singleton]
      exact List.nodup_append.mpr ⟨h.nodup, by simp, by
        rintro a ha b hb rfl
        exact hnot.2 (List.mem_singleton.mp hb ▸ ha)⟩
    · rw [h.dirty, List.mem_append, not_or] at hnot
      exact List.forall_mem_append.mpr ⟨h.new, List.forall_mem_singleton.mpr hnot.1⟩
    · intro all hall hfresh
      have hsub := h.needed all hall hfresh
      refine List.append_subset.mpr ⟨hsub, List.cons_subset.mpr ⟨?_, List.nil_subset _⟩⟩
      exact Classical.byContradiction fun hout =>
        hall e.code ((mem_codes hk).mpr hcode) hout i hi (hsub hin)
  · rename_i hv
    refine .inl ⟨rfl, fun hnot i hi hin => hv ?_⟩
    simp only [Bool.and_eq_true, Bool.not_eq_true', List.contains_eq_mem, decide_eq_false_iff_not,
      List.any_eq_true, decide_eq_true_eq]
    exact ⟨hnot, i, hi, hin⟩

theorem entries_visit (m : Marking) (p : String × EntryId) {id : EntryId} {e : Entry}
    (h : m.state.2.entries[id]? = some e) : (visit m p).state.2.entries[id]? = some e := by
  unfold visit
  split
  · exact h
  · split
    · have hlt := (Array.getElem?_eq_some_iff.mp h).1
      simp only [refresh, Array.getElem?_push]
      rw [if_neg (Nat.ne_of_lt hlt)]
      exact h
    · exact h

/-- Visits mark further modules, or find nothing to mark. -/
theorem Marked.visits (hk : s.1.Keyed s.2) (ps : List (String × EntryId)) :
    ∀ {m : Marking} {order : List ModuleCode}, Marked s fresh order m →
      (∀ p ∈ ps, ∃ c, At s m.state.2 p c) →
      ∃ more, Marked s fresh (order ++ more) (ps.foldl Unordered.visit m) ∧
        (∀ c ∈ more.head?, c.name ∉ m.dirty) ∧
        (more = [] → ∀ p ∈ ps, ∀ c, s.1.code? s.2 p.1 = some c → p.1 ∉ m.dirty →
          ∀ i ∈ c.imports, i ∉ m.dirty) := by
  induction ps with
  | nil => intro m order h _; exact ⟨[], by simpa using h, nofun, nofun⟩
  | cons p ps ih =>
    intro m order h hps
    rw [List.forall_mem_cons] at hps
    obtain ⟨⟨c, hc⟩, hps⟩ := hps
    rw [List.foldl_cons]
    rcases h.visit hk hc with ⟨hv, hnone⟩ | ⟨hnew, hv⟩
    · rw [hv]
      obtain ⟨more, hm, hhead, hrest⟩ := ih h hps
      refine ⟨more, hm, hhead, fun hmore => List.forall_mem_cons.mpr ⟨?_, hrest hmore⟩⟩
      intro d hd
      rw [hc.2.1] at hd
      cases hd
      exact hnone
    · have hps' : ∀ q ∈ ps, ∃ d, At s (Unordered.visit m p).state.2 q d := by
        intro q hq
        obtain ⟨d, ⟨e, he, hd⟩, hrest⟩ := hps q hq
        exact ⟨d, ⟨e, entries_visit m p he, hd⟩, hrest⟩
      obtain ⟨more, hm, -, -⟩ := ih hv hps'
      refine ⟨c :: more, by simpa using hm, ?_, nofun⟩
      rintro d ⟨⟩
      exact hnew

theorem Marked.at (h : Marked s fresh order m) (hk : s.1.Keyed s.2) {p : String × EntryId}
    (hp : p ∈ m.state.1.modules) : ∃ c, At s m.state.2 p c := by
  obtain ⟨e, he, hn⟩ := (h.keyed hk).entry p hp
  refine ⟨e.code, ⟨e, he, rfl⟩, ?_, hn⟩
  have hget := Table.get?_of_mem (h.keyed hk).nodup hp
  rw [← h.code? hk, Loader.code?, hget, Option.bind_some, he]
  rfl

theorem Marked.names (h : Marked s fresh order m) (hk : s.1.Keyed s.2) :
    ∀ c ∈ s.1.codes s.2, ∃ p ∈ m.state.1.modules, p.1 = c.name := by
  intro c hc
  have hcode := (mem_codes hk).mp hc
  rw [← h.code? hk] at hcode
  obtain ⟨id, hid, -⟩ := Option.bind_eq_some_iff.mp hcode
  exact ⟨(c.name, id), Table.mem_of_get? hid, rfl⟩

theorem Marked.pass (h : Marked s fresh order m) (hk : s.1.Keyed s.2) :
    Ends (Unordered.pass m) fun m' => ∃ more, Marked s fresh (order ++ more) m' ∧
      (∀ c ∈ more.head?, c.name ∉ m.dirty) ∧ (more = [] → Closed (s.1.codes s.2) m.dirty) := by
  refine (ends_anyOrder fun _ hps => hps).bind fun ps (hps : ps.Perm _) => ends_pure ?_
  obtain ⟨more, hm, hhead, hnone⟩ := Marked.visits hk ps h fun p hp =>
    h.at hk (hps.mem_iff.mp hp)
  refine ⟨more, hm, hhead, fun hmore c hc hn => ?_⟩
  obtain ⟨p, hp, hpn⟩ := h.names hk c hc
  rw [← hpn] at hn
  exact hnone hmore p (hps.mem_iff.mpr hp) c (hpn ▸ (mem_codes hk).mp hc) hn

/-- What a pass marks was not marked before, and is no longer unreached. -/
theorem Marked.unreached_lt (h : Marked s fresh order m) (hk : s.1.Keyed s.2) {m' : Marking}
    {c : ModuleCode} {more : List ModuleCode} (h' : Marked s fresh (order ++ c :: more) m')
    (hc : c.name ∉ m.dirty) :
    unreached (s.1.codes s.2) m'.dirty < unreached (s.1.codes s.2) m.dirty := by
  have hdirty : m'.dirty = m.dirty ++ (c :: more).map (·.name) := by
    rw [h'.dirty, h.dirty]
    simp
  have hcode : c ∈ s.1.codes s.2 := (mem_codes hk).mpr (h'.known c (by simp))
  exact Loader.unreached_lt (hdirty ▸ List.subset_append_left _ _) hcode hc (by simp [hdirty])

/-- Passes end with a closed set of marked modules. -/
theorem Marked.mark (hk : s.1.Keyed s.2) (rounds : Nat) : ∀ {m : Marking} {order : List ModuleCode},
    Marked s fresh order m → unreached (s.1.codes s.2) m.dirty ≤ rounds →
    Ends (Unordered.mark rounds m) fun m' =>
      (∃ order', Marked s fresh order' m') ∧ Closed (s.1.codes s.2) m'.dirty := by
  induction rounds with
  | zero =>
    intro m order h hle
    exact ends_pure ⟨⟨order, h⟩, closed_of_unreached (Nat.le_zero.mp hle)⟩
  | succ rounds ih =>
    intro m order h hle
    refine (h.pass hk).bind fun m' hm' => ?_
    obtain ⟨more, hm, hhead, hnone⟩ := hm'
    have hdirty : m'.dirty = m.dirty ++ more.map (·.name) := by
      rw [hm.dirty, h.dirty]
      simp
    cases more with
    | nil =>
      have hsame : m'.dirty = m.dirty := by simpa using hdirty
      rw [if_pos (by rw [hsame])]
      exact ends_pure ⟨⟨_, hm⟩, hsame ▸ hnone rfl⟩
    | cons c more =>
      rw [if_neg (by simp [hdirty])]
      refine ih hm ?_
      have hlt := h.unreached_lt hk hm (hhead c rfl)
      omega

theorem Marked.perm (h : Marked s fresh order m) (hk : s.1.Keyed s.2)
    (hclosed : Closed (s.1.codes s.2) m.dirty) : (stale (s.1.codes s.2) fresh).Perm order := by
  have hfresh : fresh ⊆ m.dirty := h.dirty ▸ List.subset_append_left _ _
  have hdirty : ∀ k, k ∈ reach (s.1.codes s.2) (s.1.codes s.2).length fresh ↔ k ∈ m.dirty := by
    intro k
    exact ⟨fun hk => reach_subset hclosed _ hfresh hk,
      fun hk => h.needed _ (closed_reach_length _ _) (subset_reach _ _ _) hk⟩
  have hcodes : (s.1.codes s.2).Nodup := by
    refine List.Nodup.of_map (·.name) ?_
    rw [names_codes hk]
    exact hk.nodup
  refine (List.perm_ext_iff_of_nodup (hcodes.filter _) (h.nodup.of_map _)).mpr fun c => ?_
  rw [← stale, mem_stale, mem_codes hk, hdirty, h.dirty, List.mem_append]
  constructor
  · rintro ⟨hc, hm, hn⟩
    obtain ⟨d, hd, hdc⟩ := List.mem_map.mp (hm.resolve_left hn)
    have hcode := h.known d hd
    rw [hdc, hc] at hcode
    cases hcode
    exact hd
  · intro hc
    exact ⟨h.known c hc, .inr (List.mem_map_of_mem hc), h.new c hc⟩

/-- In whatever order modules are marked, the loader is the one that `Loader.extend` makes, up to the
numbers of its fresh entries. -/
theorem ends_extend {l : Loader} {w : World} (hk : l.Keyed w) (mods : List ModuleCode) :
    Ends (extend l mods w) fun s => ∃ π : Equiv.Perm EntryId,
      (∀ id < w.entries.size, π id = id) ∧ Same π (l.extend mods w) s := by
  simp only [Unordered.extend, Loader.extend_eq, List.isEmpty_iff]
  split
  · exact ends_pure ⟨.refl _, fun _ _ => rfl, .refl _⟩
  · have r := renews_refresh mods hk
    generalize mods.foldl Loader.refresh (l, w) = s at r ⊢
    have hstart : Marked s (mods.map (·.name)) [] ⟨s, mods.map (·.name)⟩ :=
      ⟨rfl, by simp, nofun, List.nodup_nil, nofun, fun _ _ h => h⟩
    have hcount : unreached (s.1.codes s.2) (mods.map (·.name)) ≤ s.1.modules.length := by
      have hlength : (s.1.codes s.2).length = s.1.modules.length := by
        simpa [Table.names] using congrArg List.length (names_codes r.keyed)
      rw [← hlength]
      exact List.countP_le_length
    refine (hstart.mark r.keyed _ hcount).bind fun m hm => ends_pure ?_
    obtain ⟨⟨order, hm⟩, hclosed⟩ := hm
    have hperm := hm.perm r.keyed hclosed
    obtain ⟨π, hfixed, hsame⟩ := same_foldl_refresh hperm.symm r.keyed hm.nodup fun c hc => by
      obtain ⟨id, hid, -⟩ := Option.bind_eq_some_iff.mp (hm.known c hc)
      exact Table.get?_isSome.mp (by simp [hid])
    refine ⟨π.symm, fun id hid => ?_, ?_⟩
    · rw [Equiv.symm_apply_eq, hfixed id (Nat.lt_of_lt_of_le hid r.size)]
    · rw [hm.state]
      exact hsame.symm

end Unordered

end LazySession
