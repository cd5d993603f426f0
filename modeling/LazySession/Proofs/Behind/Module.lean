import LazySession.Proofs.Behind.Lockstep
import LazySession.Proofs.Origin.Linking
import LazySession.Proofs.Renaming.Module
import LazySession.Proofs.Twin.World

/-!
# A module made again

A module is made in a scope behind that of the builtin functions: first come the names of its imports,
and then its definitions. `Heap.Founded` tells how this once happened in a heap, and
`Heap.Founded.pair` that it happens again in a heap behind it. What is made is paired, all at once.
-/

namespace LazySession

namespace Heap

open Loader

variable {h h' h₀ g G k : Heap} {p q r : Pairing} {S S' T : Set ScopeId} {a scope : ScopeId}
variable {defs : List Definition} {fields names names' : Table Value} {A : Set Addr}

/-! ## What the pieces of making a module do -/

theorem ripens_of_adds (ha : h.Adds h') (hc : h'.cells = h.cells)
    (hsize : h.scopes.size ≤ h'.scopes.size)
    (hs : ∀ id ∈ T, ∀ s, h.scopes[id]? = some s → h'.scopes[id]? = some s) : h.Ripens T h' where
  idle := by
    refine ⟨hs, hsize, fun id t ht => ?_, fun id c hid => by rw [cells_idle, hc]; exact hid⟩
    rw [getElem?_idle] at ht
    obtain ⟨t', ht', rfl⟩ := Option.map_eq_some_iff.mp ht
    rw [getElem?_idle, ha.old id t' ht']
    rfl
  done := ha.thunkValue?.mpr

theorem adds_importFields (scope : ScopeId) (own : List String) (i : String) (fields : Table Value)
    (h : Heap) : h.Adds (importFields scope own i fields h) :=
  .of_eq (thunks_importFields scope own i fields h).1

theorem size_importFields (scope : ScopeId) (own : List String) (i : String) (fields : Table Value) :
    ∀ h : Heap, (importFields scope own i fields h).scopes.size = h.scopes.size := by
  induction fields with
  | nil => exact fun _ => rfl
  | cons p fields ih =>
    intro h
    refine (ih _).trans ?_
    simp only
    split <;> simp [setVar]

theorem ripens_importFields (hT : scope ∉ T) (own : List String) (i : String) (fields : Table Value)
    (h : Heap) : h.Ripens T (importFields scope own i fields h) := by
  refine ripens_of_adds (adds_importFields scope own i fields h)
    (thunks_importFields scope own i fields h).2 (size_importFields scope own i fields h).ge ?_
  intro id hid s hs
  refine (fills_importFields scope own i fields h).scopes id s (fun hm => hT ?_) hs
  rwa [← List.mem_singleton.mp hm]

theorem ripens_defineAll (hT : scope ∉ T) (defs : List Definition) (h : Heap) :
    h.Ripens T (defineAll scope defs h).2 := by
  have hd := defined_defineAll scope defs h
  refine ripens_of_adds (adds_defineAll scope defs h) hd.cells (sizes_defineAll scope defs h).2.ge ?_
  intro id hid s hs
  refine hd.fills.scopes id s (fun hm => hT ?_) hs
  rwa [← List.mem_singleton.mp hm]

theorem adds_newModuleScope (h : Heap) : h.Adds (newModuleScope h).2 := .of_eq rfl

theorem ripens_newModuleScope (T : Set ScopeId) (h : Heap) : h.Ripens T (newModuleScope h).2 :=
  ripens_of_grows (adds_newModuleScope h) (grows_newModuleScope h) T

theorem idle_defineAll (scope : ScopeId) (defs : List Definition) (h : Heap) :
    defineAll scope defs h.idle = ((defineAll scope defs h).1, (defineAll scope defs h).2.idle) := by
  have step : ∀ (ds : List Definition) (fields : Table Value) (h : Heap),
      ds.foldl (defineNext scope) (fields, h.idle) =
        ((ds.foldl (defineNext scope) (fields, h)).1, (ds.foldl (defineNext scope) (fields, h)).2.idle) := by
    intro ds
    induction ds with
    | nil => exact fun _ _ => rfl
    | cons d ds ih =>
      intro fields h
      have hnext : defineNext scope (fields, h.idle) d =
          ((defineNext scope (fields, h) d).1, (defineNext scope (fields, h) d).2.idle) := by
        simp only [defineNext, idle_newBinding]
        rfl
      rw [List.foldl_cons, List.foldl_cons, hnext]
      exact ih _ _
  rw [defineAll_eq, defineAll_eq]
  exact step defs [] h

/-- Scopes that are there are paired. -/
theorem Twin.open (ht : h.Twin nothing p g) {a b : ScopeId} {s s' : Scope} (hs : h.scopes[a]? = some s)
    (hs' : g.scopes[b]? = some s') (hss : s.Twin p s') (ho : ∀ o, s.outer = some o → o < a)
    (ho' : ∀ o, s'.outer = some o → o < b) (ha : ∀ y, ¬ p.scopes a y) (hb : ∀ x, ¬ p.scopes x b) :
    h.Twin nothing (p.addScope a b) g where
  thunks := ht.thunks.imp fun _ _ h => h.mono p.within_addScope
  cells := ht.cells.imp fun _ _ h => rel_imp h fun _ _ h => h.mono p.within_addScope
  scopes := by
    refine ⟨?_, ?_, fun hf => hf.elim⟩
    · rintro x y x' y' (h | ⟨rfl, rfl⟩) (h' | ⟨rfl, rfl⟩)
      · exact ht.scopes.unique h h'
      · exact iff_of_false (by rintro rfl; exact ha _ h) (by rintro rfl; exact hb _ h)
      · exact iff_of_false (by rintro rfl; exact ha _ h') (by rintro rfl; exact hb _ h')
      · exact iff_of_true rfl rfl
    · rintro x y (hab | ⟨rfl, rfl⟩)
      · obtain ⟨u, u', hu, hu', huu⟩ := ht.scopes.related hab
        exact ⟨u, u', hu, hu', huu.mono p.within_addScope⟩
      · exact ⟨s, s', hs, hs', hss.mono p.within_addScope⟩
  nested := by
    rintro x y (hab | ⟨rfl, rfl⟩)
    · exact ht.nested hab
    · refine ⟨fun u o hu hou => ?_, fun u o hu hou => ?_⟩
      · obtain rfl := Option.some.inj (hs.symm.trans hu)
        exact ho o hou
      · obtain rfl := Option.some.inj (hs'.symm.trans hu)
        exact ho' o hou

/-! ## Modules -/

/-- In an earlier state of the heap `G`, the definitions of a module have been made in a scope that had
the names of the imports, and `fields` is what they are. For this the addresses in `A` were made. -/
inductive Founded (S : Set ScopeId) (G : Heap) (names : Table Value) (defs : List Definition)
    (fields : Table Value) (A : Set Addr) : Prop
  | intro {k : Heap} {U : Set ScopeId} {r : Pairing} {root scope : ScopeId} (hU : U ⊆ S)
    (hr : r.Amid U .univ) (hk : k.idle.Twin nothing r k.idle)
    (hroot : k.scopes[root]? = some ⟨Builtin.all.map fun b => (b.name, .builtin b), none⟩)
    (hscope : k.scopes[scope]? = some ⟨names, some root⟩) (hlt : root < scope)
    (hnew : root ∉ U ∧ scope ∉ U) (hS : root ∈ S ∧ scope ∈ S)
    (hnames : names.Twin (Value.Held r) names) (hfields : (defineAll scope defs k).1 = fields)
    (hG : (defineAll scope defs k).2.Ripens (insert root (insert scope U)) G)
    (hA : A = {.scope root, .scope scope} ∪ k.made (defineAll scope defs k).2)

theorem Founded.mono (hf : Founded S G names defs fields A) (hS : S ⊆ S') (hg : G.Ripens S g) :
    Founded S' g names defs fields A := by
  obtain ⟨hU, hr, hk, hroot, hscope, hlt, hnew, hin, hnames, hfields, hG, hA⟩ := hf
  refine ⟨hU.trans hS, hr, hk, hroot, hscope, hlt, hnew, ⟨hS hin.1, hS hin.2⟩, hnames, hfields,
    hG.trans (hg.mono ?_), hA⟩
  exact Set.insert_subset hin.1 (Set.insert_subset hin.2 hU)

/-- A module that was once made is made in a heap behind, and what is made is paired. -/
theorem Founded.pair (hf : Founded S G names defs fields A) (hb : h.Behind p G) {root a : ScopeId}
    (hroot : h.scopes[root]? = some ⟨Builtin.all.map fun b => (b.name, .builtin b), none⟩)
    (ha : h.scopes[a]? = some ⟨names', some root⟩) (hlt : root < a)
    (hnames : names'.Twin (Value.Held p) names) (hfresh : ∀ y, ¬ p.scopes root y ∧ ¬ p.scopes a y)
    (hA : Disjoint A p.seen) (hsize : h₀.scopes.size ≤ root) :
    ∃ q, p.Gains q h₀ A ∧ (defineAll a defs h).1.Twin (Value.Held q) fields ∧
      (defineAll a defs h).2.Behind q G := by
  obtain ⟨hU, hr, hk, hroot', hscope, hlt', hnew, hin, hnames', rfl, hG, rfl⟩ := hf
  rename_i k U r root' scope
  have hkG : k.Ripens U G := (ripens_defineAll hnew.2 defs k).trans
    (hG.mono ((Set.subset_insert _ _).trans (Set.subset_insert _ _)))
  have hu : h.idle.Twin nothing (p.upto r) k.idle := hb.idle.upto hk hr hkG.idle
  have hunseen : ∀ {id}, .scope id ∈ ({.scope root', .scope scope} : Set Addr) → ∀ x, ¬ p.scopes x id :=
    fun hid x hx => Set.disjoint_left.mp hA (.inl hid) ⟨x, hx⟩
  -- the two scopes of the module stand for one another, and with them what is made there
  have hopen := hu.open hroot hroot' ⟨twin_builtins _, .none⟩ nofun nofun
    (fun y hy => (hfresh y).1 hy.1) fun x hx => hunseen (.inl rfl) x hx.1
  have hopen₂ := hopen.open ha hscope
    ⟨(hnames.upto hnames').imp fun _ _ hv => hv.mono (Pairing.within_addScope _), .some (.inr ⟨rfl, rfl⟩)⟩
    (by rintro _ ⟨⟩; exact hlt) (by rintro _ ⟨⟩; exact hlt')
    (by
      rintro y (hy | ⟨rfl, -⟩)
      · exact (hfresh y).2 hy.1
      · exact Nat.lt_irrefl _ hlt)
    (by
      rintro x (hx | ⟨-, rfl⟩)
      · exact hunseen (.inr rfl) x hx.1
      · exact Nat.lt_irrefl _ hlt')
  obtain ⟨q, hq, hfields, htwin⟩ := twin_defineAll (a := a) (b := scope) (p := Pairing.addScope _ a scope) defs
    (.inr ⟨rfl, rfl⟩) hopen₂
  rw [idle_defineAll, idle_defineAll] at hfields htwin
  have hscopes : ∀ {x y}, q.scopes x y → p.scopes x y ∨
      (∀ c, ¬ p.scopes x c) ∧ h₀.scopes.size ≤ x ∧ .scope y ∈ ({.scope root', .scope scope} : Set Addr) := by
    intro x y hxy
    rcases hq.scopes hxy with ((h | ⟨rfl, rfl⟩) | ⟨rfl, rfl⟩) | ⟨-, hn⟩
    · exact .inl h.1
    · exact .inr ⟨fun c => (hfresh c).1, hsize, .inl rfl⟩
    · exact .inr ⟨fun c => (hfresh c).2, hsize.trans hlt.le, .inr rfl⟩
    · have hlt := (htwin.scopes.lt hxy).2
      rw [scopes_idle, (sizes_defineAll scope defs k).2] at hlt
      exact absurd hlt (Nat.not_lt_of_le hn)
  have hthunks : ∀ {x y}, q.thunks x y → p.thunks x y ∨
      h.thunks.size ≤ x ∧ .thunk y ∈ k.made (defineAll scope defs k).2 := by
    intro x y hxy
    have hlt := (htwin.thunks.lt hxy).2
    rw [size_thunks_idle] at hlt
    refine (hq.thunks hxy).imp And.left fun hn => ?_
    rw [size_thunks_idle, size_thunks_idle] at hn
    exact ⟨hn.1, hlt, Nat.not_lt_of_le hn.2⟩
  have hcells : ∀ {x y}, q.cells x y → p.cells x y ∨
      h.cells.size ≤ x ∧ .cell y ∈ k.made (defineAll scope defs k).2 := by
    intro x y hxy
    have hlt := (htwin.cells.lt hxy).2
    exact (hq.cells hxy).imp And.left fun hn => ⟨hn.1, hlt, Nat.not_lt_of_le hn.2⟩
  have hmade {x : Addr} (hx : x ∈ k.made (defineAll scope defs k).2) : x ∉ p.seen :=
    fun hs => Set.disjoint_left.mp hA (.inr hx) hs
  have hamid : q.Amid .univ (insert root' (insert scope U)) := by
    intro x y hxy
    refine ⟨trivial, ?_⟩
    rcases hq.scopes hxy with ((h | ⟨-, rfl⟩) | ⟨-, rfl⟩) | ⟨-, hn⟩
    · obtain ⟨-, c, hc⟩ := h
      exact .inr (.inr (hr hc).1)
    · exact .inl rfl
    · exact .inr (.inl rfl)
    · have hlt := (htwin.scopes.lt hxy).2
      rw [scopes_idle, (sizes_defineAll scope defs k).2] at hlt
      exact absurd hlt (Nat.not_lt_of_le hn)
  have hpair : Fresh p q h := by
    refine ⟨fun hxy => ?_, fun hxy => ?_, fun hxy => ?_⟩
    · exact (hthunks hxy).imp_right fun hn => ⟨hn.1, hmade hn.2⟩
    · exact (hcells hxy).imp_right fun hn => ⟨hn.1, hmade hn.2⟩
    · exact (hscopes hxy).imp_right fun hn => ⟨hn.1, fun ⟨x, hx⟩ => hunseen hn.2.2 x hx⟩
  refine ⟨p.join q, ⟨Pairing.within_join_left, ?_, fun hxy => ?_⟩, ?_, ?_⟩
  · rw [Pairing.seen_join]
    refine Set.union_subset Set.subset_union_left ?_
    rintro (y | y | y) ⟨x, hx⟩
    · exact (hthunks hx).imp (fun h => ⟨x, h⟩) fun hn => .inr hn.2
    · exact (hcells hx).imp (fun h => ⟨x, h⟩) fun hn => .inr hn.2
    · exact (hscopes hx).imp (fun h => ⟨x, h⟩) fun hn => .inl hn.2.2
  · exact hxy.elim .inl fun hxy => (hscopes hxy).imp_right fun hn => hn.2.1
  · exact hfields.imp fun _ _ hv => hv.mono Pairing.within_join_right
  · refine hb.join htwin (T := {x | x ≠ a}) ?_ hamid
      (ripens_defineAll (show a ∉ {x | x ≠ a} from fun hm => hm rfl) defs h)
      (adds_defineAll a defs h).thunkValue?.mp hG hpair
    intro x y hxy
    refine ⟨?_, trivial⟩
    rintro rfl
    exact (hfresh y).2 hxy

/-! ## Heaps of which only the first changes -/

section
variable {set : Setting} {first : ThunkId → Prop} {L : List Told}

theorem Abreast.found (hb : h.Abreast set first S L p g) (ha : h.Adds h') (hr : h.Ripens T h')
    (hbehind : h'.Behind q g) (hq : p.Gains q h₀ A) (hfirst : ∀ id, first id → .thunk id ∉ A)
    (hL : ∀ i ∈ L, Disjoint i.region A) : h'.Abreast set first S L q g :=
  hb.catch hbehind (hb.informed.mono hr ha.forcing hq hfirst hL hbehind.idle.thunks.unique) hq.within hr
    ha.forcing

theorem Abreast.left (hb : h.Abreast set first S L p g) (hT : p.Amid T .univ) (ha : h.Adds h')
    (hr : h.Ripens T h') : h'.Abreast set first S L p g := by
  refine hb.found ha hr ⟨hb.behind.idle.holds hT hr.idle (.refl _ _), fun hab hv => ?_⟩ (.refl p h ∅)
    (fun _ _ hx => hx) fun _ _ => Set.disjoint_empty _
  exact hb.behind.done hab (ha.thunkValue?.mp hv)

end

end Heap

end LazySession
