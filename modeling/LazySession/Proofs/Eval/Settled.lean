import LazySession.Proofs.Loader.Preserved
import LazySession.Proofs.Scope.Evaluation
import Mathlib.Logic.Relation

/-!
# What has a value keeps it

Evaluation goes only into thunks that have no value yet, and it writes into no cell. So the value of
a thunk and the content of a cell are the same in every configuration that comes after:
`Machine.settles_reaches`. Linking and reading keep them too: `Loader.kept_settles`.
-/

namespace LazySession

namespace Heap

/-- From `h` to `h'`, thunks that have been evaluated keep their values, and cells what they hold. -/
structure Settles (h h' : Heap) : Prop where
  thunks : ∀ id v, h.thunkValue? id = some v → h'.thunkValue? id = some v
  cells : ∀ (id : CellId) (c : Option Value), h.cells[id]? = some c → h'.cells[id]? = some c

/-- The thunk has no value. -/
def Undone (h : Heap) (id : ThunkId) : Prop := h.thunkValue? id = none

variable {h h' h'' : Heap}

theorem Settles.refl (h : Heap) : h.Settles h := ⟨fun _ _ hv => hv, fun _ _ hc => hc⟩

theorem Settles.trans (s : h.Settles h') (s' : h'.Settles h'') : h.Settles h'' :=
  ⟨fun id v hv => s'.thunks id v (s.thunks id v hv), fun id c hc => s'.cells id c (s.cells id c hc)⟩

theorem thunkValue?_eq_some {id : ThunkId} {v : Value} :
    h.thunkValue? id = some v ↔ ∃ t, h.thunks[id]? = some t ∧ t.state = .done v := by
  unfold thunkValue?
  split
  · rename_i name code source want u ht
    simp [ht]
  · rename_i hn
    simp only [reduceCtorEq, false_iff, not_exists, not_and]
    intro t ht hs
    obtain ⟨name, code, source, want, state⟩ := t
    cases hs
    exact hn _ _ _ _ _ ht

theorem Settles.getCell? (s : h.Settles h') {id : CellId} {v : Value} (hv : h.getCell? id = some v) :
    h'.getCell? id = some v := by
  unfold Heap.getCell? at *
  rw [Option.join_eq_some_iff] at *
  exact s.cells _ _ hv

theorem Grows.settles (g : h.Grows h.Undone h') : h.Settles h' := by
  refine ⟨fun id v hv => ?_, g.cells⟩
  obtain ⟨t, ht, hs⟩ := thunkValue?_eq_some.mp hv
  obtain ⟨state, ht', hstate⟩ := g.thunks id t ht
  refine thunkValue?_eq_some.mpr ⟨_, ht', ?_⟩
  rw [← hs, hstate]
  intro hn
  rw [Undone, hv] at hn
  cases hn

end Heap

namespace Machine

variable {set : Setting} {c c' : Machine} {h : Heap}

/-! ## Configurations that are reached -/

/-- Steps lead from one configuration to the other. -/
abbrev Reaches (set : Setting) : Machine → Machine → Prop :=
  Relation.ReflTransGen fun c c' => c.next set = .going c'

theorem reaches_run (set : Setting) (c : Machine) :
    Reaches set c ⟨.give (run set c).1, [], (run set c).2⟩ :=
  run_keeps (P := Reaches set c) (fun _ _ hr hn => hr.tail hn) c .refl

theorem undone_next (g : h.Grows h.Undone c.state.heap) (hc : ∀ id ∈ c.held, h.Undone id)
    (hn : c.next set = .going c') : ∀ id ∈ c'.held, h.Undone id := by
  rcases heldIn_next hn with ⟨depth, v, s, hs, rfl⟩ | hin
  · intro id hid
    unfold demand at hid
    split at hid
    · exact hc id hid
    · rename_i i t e scope hd
      rcases List.mem_cons.mp hid with rfl | hid
      · rcases s.demand_cases v with ⟨i', t', e', scope', _, ht, hp, _, hd'⟩ | hd' | ⟨_, _, _, _, hd'⟩ |
          ⟨_, _, hd', _⟩ <;> rw [hd] at hd' <;> cases hd'
        -- had it a value before, it would not be pending now
        refine Option.eq_none_iff_forall_ne_some.mpr fun u hu => ?_
        rw [hs] at ht
        obtain ⟨t', ht', hs'⟩ := Heap.thunkValue?_eq_some.mp (g.settles.thunks _ u hu)
        rw [ht] at ht'
        obtain rfl := Option.some.inj ht'
        rw [hp] at hs'
        cases hs'
      · exact hc id hid
  · exact fun id hid => hc id (hin id hid)

theorem grows_reaches (hc : ∀ id ∈ c.held, c.state.heap.Undone id) (hr : Reaches set c c') :
    c.state.heap.Grows c.state.heap.Undone c'.state.heap ∧
      ∀ id ∈ c'.held, c.state.heap.Undone id := by
  induction hr with
  | refl => exact ⟨.refl _ _, hc⟩
  | tail _ hn ih =>
    have hheld := undone_next ih.1 ih.2 hn
    exact ⟨grows_next ih.1 hn ih.2 hheld, hheld⟩

theorem settles_reaches (hc : ∀ id ∈ c.held, c.state.heap.Undone id) (hr : Reaches set c c') :
    c.state.heap.Settles c'.state.heap :=
  (grows_reaches hc hr).1.settles

end Machine

namespace EvalState

variable {set : Setting}

/-- A configuration that the machine goes through while a value is evaluated. -/
def Visits (set : Setting) (s : EvalState) (v : Value) (c : Machine) : Prop :=
  Machine.Reaches set (Machine.demand set.limit v [] s) c

theorem settles_visits {s : EvalState} {v : Value} {c : Machine} (hv : s.Visits set v c) :
    s.heap.Settles c.state.heap := by
  have hundone : ∀ id ∈ (Machine.demand set.limit v [] s).held, s.heap.Undone id := by
    intro id hid
    unfold Machine.demand at hid
    split at hid
    · cases hid
    · rename_i i t e scope hd
      obtain rfl : id = i := by simpa [Machine.held, Frame.thunk?] using hid
      rcases s.demand_cases v with ⟨i', t', e', scope', _, ht, hp, _, hd'⟩ | hd' | ⟨_, _, _, _, hd'⟩ |
        ⟨_, _, hd', _⟩ <;> rw [hd] at hd' <;> cases hd'
      refine Option.eq_none_iff_forall_ne_some.mpr fun u hu => ?_
      obtain ⟨t', ht', hs'⟩ := Heap.thunkValue?_eq_some.mp hu
      rw [ht] at ht'
      obtain rfl := Option.some.inj ht'
      rw [hp] at hs'
      cases hs'
  have hstart : s.heap.Grows s.heap.Undone (Machine.demand set.limit v [] s).state.heap :=
    Machine.grows_demand (.refl _ _) hundone
  have hgrows : s.heap.Grows s.heap.Undone c.state.heap ∧ ∀ id ∈ c.held, s.heap.Undone id := by
    induction hv with
    | refl => exact ⟨hstart, hundone⟩
    | tail _ hn ih =>
      have hheld := Machine.undone_next ih.1 ih.2 hn
      exact ⟨Machine.grows_next ih.1 hn ih.2 hheld, hheld⟩
  exact hgrows.1.settles

theorem settles_force (set : Setting) (s : EvalState) (v : Value) :
    s.heap.Settles (s.force set v).2.heap :=
  settles_visits (c := ⟨_, [], _⟩) (Machine.reaches_run set _)

end EvalState

namespace Loader

theorem thunks_importFields (scope : ScopeId) (own : List String) (imported : String)
    (fields : Table Value) : ∀ h : Heap,
    (importFields scope own imported fields h).thunks = h.thunks ∧
      (importFields scope own imported fields h).cells = h.cells := by
  induction fields with
  | nil => exact fun h => ⟨rfl, rfl⟩
  | cons p fields ih =>
    intro h
    refine ⟨(ih _).1.trans ?_, (ih _).2.trans ?_⟩ <;> simp only <;> split <;> rfl

theorem settles_of_eq {h h' : Heap} (ht : h'.thunks = h.thunks) (hc : h'.cells = h.cells) :
    h.Settles h' where
  thunks id v hv := by
    unfold Heap.thunkValue? at *
    rw [ht]
    exact hv
  cells id c hid := by
    rw [hc]
    exact hid

theorem kept_settles (set : Setting) : Kept set fun w w' => w.heap.Settles w'.heap where
  refl w := .refl w.heap
  trans h h' := h.trans h'
  inquire w _ _ := .refl w.heap
  scope _ := settles_of_eq rfl rfl
  imports w scope own i fields :=
    settles_of_eq (thunks_importFields scope own i fields w.heap).1
      (thunks_importFields scope own i fields w.heap).2
  define w scope defs := by
    have hd := defined_defineAll scope defs w.heap
    refine ⟨fun id v hv => ?_, fun id c hc => by rw [hd.cells]; exact hc⟩
    obtain ⟨t, ht, hs⟩ := Heap.thunkValue?_eq_some.mp hv
    exact Heap.thunkValue?_eq_some.mpr ⟨t, hd.thunks id t ht, hs⟩
  force w steps v := EvalState.settles_force set (Act.start steps w) v
  link w _ _ := .refl w.heap

end Loader

end LazySession
