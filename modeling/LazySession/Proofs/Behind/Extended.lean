import LazySession.Proofs.Behind.Relinking
import LazySession.Proofs.Scope.Closure
import LazySession.Proofs.Session.Service

/-!
# Loaders with more modules

A loader that holds all imports of its modules links one of them without looking at any other module.
So a loader with further modules links it in the same way: `Loader.load_extended`.
-/

namespace LazySession

namespace Loader

open Act

variable {set : Setting} {l l' : Loader} {code? : String → Option ModuleCode} {w : World}

/-- The loader has the code. -/
structure Provides (l : Loader) (code? : String → Option ModuleCode) (w : World) : Prop where
  keyed : l.Keyed w
  code : l.code? w = code?

theorem Provides.keeps {w' : World} (h : l.Provides code? w) (hw : w.KeepsCode w') : l.Provides code? w' :=
  ⟨hw.keyed h.keyed, by rw [← h.code]; exact funext (hw.code? h.keyed)⟩

theorem Provides.withHeap (h : l.Provides code? w) (heap : Heap) :
    l.Provides code? { w with heap } := h.keeps (.of_entries rfl)

theorem Provides.link (h : l.Provides code? w) (fuel : Nat) (visiting : List String) (n : String) :
    l.Provides code? ((link set l fuel visiting n).run w).2 :=
  h.keeps (((kept_leaves set).holding_link l fuel visiting n).world w).2

theorem run_linkImports_congr {linkOne linkOne' : String → Act InstanceId} (mod : String) (scope : ScopeId)
    (own is : List String)
    (hone : ∀ i ∈ is, ∀ w, l.Provides code? w → (linkOne i).run w = (linkOne' i).run w)
    (hkeep : ∀ i w, l.Provides code? w → l.Provides code? ((linkOne i).run w).2) :
    ∀ w, l.Provides code? w →
      (linkImports linkOne mod scope own is).run w = (linkImports linkOne' mod scope own is).run w := by
  induction is with
  | nil => exact fun _ _ => rfl
  | cons i is ih =>
    intro w hw
    obtain ⟨hi, hone⟩ := List.forall_mem_cons.mp hone
    have hnext := hkeep i w hw
    unfold linkImports
    rw [run_bind, run_bind, run_during, run_during, ← hi w hw]
    generalize (linkOne i).run w = x at hnext
    obtain ⟨r, w₁⟩ := x
    cases r with
    | error e => rfl
    | ok inst =>
      simp only [Except.mapError, run_bind, run_get, run_set]
      exact ih hone _ (hnext.withHeap _)

theorem run_makeInstance_congr {linkOne linkOne' : String → Act InstanceId} (id : EntryId) (name : String)
    {code : ModuleCode}
    (hone : ∀ i ∈ code.imports, ∀ w, l.Provides code? w → (linkOne i).run w = (linkOne' i).run w)
    (hkeep : ∀ i w, l.Provides code? w → l.Provides code? ((linkOne i).run w).2) (hw : l.Provides code? w) :
    (makeInstance set linkOne id name code).run w = (makeInstance set linkOne' id name code).run w := by
  rw [makeInstance_eq, makeInstance_eq]
  simp only [run_bind, run_get, run_set]
  rw [run_linkImports_congr name _ _ _ hone hkeep _ (hw.withHeap _)]

theorem link_visiting (fuel : Nat) {visiting : List String} {n : String} {id : EntryId} {e : Entry}
    (hn : l.modules.get? n = some id) (he : w.entries[id]? = some e) (hv : n ∈ visiting) :
    (link set l fuel visiting n).run w = (.error (.importCycle (visiting ++ [n])), w) := by
  cases fuel with
  | zero => rfl
  | succ fuel =>
    unfold link
    rw [run_bind, run_get]
    simp only [hn, he, Option.bind_some, Option.map_some, List.contains_iff_mem.mpr hv, if_true]
    rfl

theorem link_extended (hmore : ∀ {n id}, l.modules.get? n = some id → l'.modules.get? n = some id)
    (hc : ModuleCode.Complete code?) (fuel : Nat) :
    ∀ {fuel' : Nat} {visiting : List String} {n : String} {c : ModuleCode} {w : World},
      l.Provides code? w → code? n = some c → Visits l l (fun _ => False) fuel visiting →
      Visits l l (fun _ => False) fuel' visiting →
      (link set l fuel visiting n).run w = (link set l' fuel' visiting n).run w := by
  induction fuel with
  | zero =>
    intro fuel' visiting n c w hw hn hv hv'
    obtain ⟨id, hid, -⟩ := Option.bind_eq_some_iff.mp ((congrFun hw.code n).trans hn)
    by_cases hmem : n ∈ visiting
    · obtain ⟨e, he, -⟩ := hw.keyed.get? hid
      rw [link_visiting 0 hid he hmem, link_visiting fuel' (hmore hid) he hmem]
    · obtain ⟨rest, hrest, -⟩ := hv.enter (fun _ => False) hmem (Table.get?_isSome.mp (by rw [hid]; rfl))
        (fun _ _ => not_false) fun _ => False.elim
      cases hrest
  | succ fuel ih =>
    intro fuel' visiting n c w hw hn hv hv'
    obtain ⟨id, hid, -⟩ := Option.bind_eq_some_iff.mp ((congrFun hw.code n).trans hn)
    obtain ⟨e, he, -⟩ := hw.keyed.get? hid
    by_cases hmem : n ∈ visiting
    · rw [link_visiting _ hid he hmem, link_visiting fuel' (hmore hid) he hmem]
    · have hnames : n ∈ l.modules.names := Table.get?_isSome.mp (by rw [hid]; rfl)
      obtain ⟨rest, hrest, hv₁⟩ := hv.enter (fun _ => False) hmem hnames (fun _ _ => not_false)
        fun _ => False.elim
      obtain ⟨rest', rfl, hv₁'⟩ := hv'.enter (fun _ => False) hmem hnames (fun _ _ => not_false)
        fun _ => False.elim
      obtain rfl := Nat.succ.inj hrest
      rw [link_eq set fuel hid he hmem, link_eq set rest' (hmore hid) he hmem]
      split
      · rfl
      · have hcode : code? n = some e.code := by rw [← hw.code]; simp [Loader.code?, hid, he]
        refine run_makeInstance_congr id n (fun i hi w hw => ?_) (fun i w hw => hw.link _ _ _) hw
        obtain ⟨d, hd⟩ := hc n e.code hcode i hi
        exact ih hw hd hv₁ hv₁'

/-- **Further modules make no difference.** -/
theorem load_extended (set : Setting) (hmore : ∀ {n id}, l.modules.get? n = some id → l'.modules.get? n = some id)
    (hk : l.Keyed w) (hc : ModuleCode.Complete (l.code? w)) {n : String} (hn : n ∈ l.modules.names) :
    (l'.load set n).run w = (l.load set n).run w := by
  obtain ⟨c, hcode⟩ := exists_code? hk hn
  have hlength : l.modules.length ≤ l'.modules.length := by
    have hsub : l.modules.names ⊆ l'.modules.names := fun m hm => by
      obtain ⟨id, hid⟩ := Option.isSome_iff_exists.mp (Table.get?_isSome.mpr hm)
      exact Table.get?_isSome.mp (by rw [hmore hid]; rfl)
    have hle := (List.subperm_of_subset hk.nodup hsub).length_le
    simpa [Table.names] using hle
  have hvisits : ∀ fuel, l.modules.length < fuel → Visits l l (fun _ => False) fuel [] :=
    fun fuel hlt => ⟨List.nodup_nil, List.forall_mem_nil _, List.forall_mem_nil _, by simpa using hlt⟩
  have hw : l.Provides (l.code? w)
      { w with context := { w.context with patience := w.context.patience.inquire.2 } } :=
    ⟨⟨hk.nodup, hk.entry⟩, rfl⟩
  unfold load
  rw [run_bind, run_bind, run_inquire]
  split
  · rename_i w₁ heq
    obtain ⟨-, rfl⟩ := Prod.mk.inj heq
    exact (link_extended hmore hc _ hw hcode (hvisits _ (Nat.lt_succ_self _))
      (hvisits _ (Nat.lt_succ_of_le hlength))).symm
  · rfl

end Loader

end LazySession
