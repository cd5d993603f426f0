import LazySession.Proofs.Eval.Settled
import LazySession.Proofs.Loader.Coherence
import LazySession.Proofs.Origin.Evaluation
import LazySession.Proofs.Scope.Linking
import LazySession.Proofs.Scope.Search

/-!
# Where errors of modules are placed

`ModuleCode.marks`: the code of the modules that imports of a module lead to. The fields of a linked
module lead only there, and to what the host has stored: `Loader.Placed`. Linking keeps this, and its
errors are placed there: `Loader.placed_link`.
-/

namespace LazySession

/-- If this is a runtime error, it is one of marked code. -/
def Error.Inside (M : Marks) (e : Error) : Prop := ∀ err, e.runtime? = some err → err.Inside M

theorem Error.Inside.mono {M N : Marks} {e : Error} (h : e.Inside M) (hM : M ⊆ N) : e.Inside N :=
  fun err he => (h err he).mono hM

theorem Error.inside_of_eq_none {M : Marks} {e : Error} (h : e.runtime? = none) : e.Inside M := by
  intro err he
  rw [h] at he
  cases he

/-! ## The code of modules -/

namespace ModuleCode

/-- The places of the definitions of the modules that imports of `k` lead to, its own among them. -/
def marks (code? : String → Option ModuleCode) (k : String) : Marks :=
  {m | ∃ n c d, Leads code? k n ∧ code? n = some c ∧ d ∈ c.defs ∧ d.source = m.1 ∧
    m.2 ∈ d.binding.body.places}

variable {code? code?' : String → Option ModuleCode} {k : String} {c : ModuleCode}

theorem marks_import (hc : code? k = some c) {i : String} (hi : i ∈ c.imports) :
    marks code? i ⊆ marks code? k := by
  rintro m ⟨n, b, d, hn, hm⟩
  exact ⟨n, b, d, hn.head ⟨c, hc, hi⟩, hm⟩

theorem lies_of_mem_defs (hc : code? k = some c) {d : Definition} (hd : d ∈ c.defs) :
    d.binding.body.Lies (marks code? k) d.source :=
  fun _ hp => ⟨k, c, d, .refl, hc, hd, rfl, hp⟩

theorem marks_congr (P : String → Prop) (h : ∀ k, P k → code?' k = code? k)
    (hclosed : ∀ k c, P k → code? k = some c → ∀ i ∈ c.imports, P i) (hk : P k) :
    marks code?' k = marks code? k := by
  have leads : ∀ {f g : String → Option ModuleCode}, (∀ k, P k → f k = code? k) →
      (∀ k, P k → g k = code? k) → ∀ {n}, Leads f k n → P n ∧ Leads g k n := by
    intro f g hf hg n hn
    induction hn with
    | refl => exact ⟨hk, .refl⟩
    | @tail m n _ hu ih =>
      obtain ⟨c, hc, hi⟩ := hu
      rw [hf m ih.1] at hc
      exact ⟨hclosed m c ih.1 hc n hi, ih.2.tail ⟨c, (hg m ih.1).trans hc, hi⟩⟩
  ext m
  constructor
  · rintro ⟨n, c, d, hn, hc, hm⟩
    obtain ⟨hP, hn'⟩ := leads h (fun _ _ => rfl) hn
    exact ⟨n, c, d, hn', (h n hP).symm.trans hc, hm⟩
  · rintro ⟨n, c, d, hn, hc, hm⟩
    obtain ⟨hP, hn'⟩ := leads (fun _ _ => rfl) h hn
    exact ⟨n, c, d, hn', (h n hP).trans hc, hm⟩

end ModuleCode

open ModuleCode (marks)

/-! ## Heaps between evaluations -/

/-- Things with labels lead nowhere else, and nothing is being evaluated. -/
structure Heap.Rests (L : Labels) (h : Heap) : Prop where
  inside : h.Inside L
  idle : h.Idle

section
variable {L : Labels} {M : Marks} {h h' : Heap} {scope : ScopeId}

theorem Heap.Idle.of_eq (hi : h.Idle) (ht : h'.thunks = h.thunks) : h'.Idle :=
  (Heap.Adds.of_eq ht).idle hi

theorem Heap.Inside.importFields (hs : L.scopes scope = some M) (own : List String) (i : String)
    {fields : Table Value} (hf : ∀ p ∈ fields, p.2.Inside L M) : ∀ {h : Heap}, h.Inside L →
      (Loader.importFields scope own i fields h).Inside L := by
  induction fields with
  | nil => exact fun hh => hh
  | cons p fields ih =>
    intro h hh
    obtain ⟨hp, hf⟩ := List.forall_mem_cons.mp hf
    have hv : ∀ N, L.scopes scope = some N → p.2.Inside L N := by
      intro N hN
      rw [hs] at hN
      cases hN
      exact hp
    refine ih hf ?_
    simp only
    split
    · exact hh.setVar scope _ hv
    · exact (hh.setVar scope _ hv).setVar scope _ hv

theorem Heap.Rests.importFields (hr : h.Rests L) (hs : L.scopes scope = some M) (own : List String)
    (i : String) {fields : Table Value} (hf : ∀ p ∈ fields, p.2.Inside L M) :
    (Loader.importFields scope own i fields h).Rests L where
  inside := hr.inside.importFields hs own i hf
  idle := hr.idle.of_eq (Loader.thunks_importFields scope own i fields h).1

theorem Loader.adds_defineAll (scope : ScopeId) (defs : List Definition) (h : Heap) :
    h.Adds (defineAll scope defs h).2 := by
  unfold defineAll
  refine List.foldlRecOn (motive := fun q : Table Value × Heap => h.Adds q.2) _ _ (.of_eq rfl) ?_
  rintro ⟨fields, h₁⟩ ha d -
  have hnew := Heap.adds_newBinding h₁ d.binding scope d.source d.want
  simp only at ha ⊢
  generalize h₁.newBinding d.binding scope d.source d.want = p at hnew ⊢
  exact (ha.trans hnew).trans (.of_eq rfl)

theorem Heap.Rests.newModuleScope (hr : h.Rests L) (M : Marks) : ∃ L', L.Extends L' ∧
    (Loader.newModuleScope h).2.Rests L' ∧ L'.scopes (Loader.newModuleScope h).1 = some M := by
  have hL := Labels.extends_setScope hr.inside.scopes_none M
  have hroot : h.newRoot.2.Inside (L.setScope h.scopes.size M) := by
    refine hr.inside.newScope (fun x v hx => ?_) nofun
    obtain ⟨b, -, he⟩ := List.mem_map.mp (Table.mem_of_get? hx)
    cases he
    exact .alone rfl
  have hL' := Labels.extends_setScope hroot.scopes_none M
  refine ⟨_, hL.trans hL', ⟨hroot.newScope (by simp [Table.get?]) ?_, hr.idle.of_eq rfl⟩,
    Function.update_self ..⟩
  rintro o ⟨⟩
  exact L.covers_setScope _ M

end

namespace Loader

/-! ## Linked modules -/

/-- What linked modules have defined leads only to the code of the modules that imports lead to, and
to what is marked in `S`. -/
structure Placed (ls : List Loader) (S : Marks) (L : Labels) (w : World) : Prop where
  rests : w.heap.Rests L
  fields : ∀ l ∈ ls, ∀ k inst, l.instance? w k = some inst →
    ∀ p ∈ inst.fields, p.2.Inside L (marks (l.code? w) k ∪ S)

section
variable {ls : List Loader} {opened : List ScopeId} {S M : Marks} {L L' : Labels} {w w' : World}
variable {l : Loader}

theorem Placed.setHeap (h : Placed ls S L w) (hL : L.Extends L') (hh : w'.heap.Rests L')
    (hi : w'.instances = w.instances) (he : w'.entries = w.entries) : Placed ls S L' w' := by
  refine ⟨hh, fun l hl k inst hk p hp => ?_⟩
  have hcode : l.code? w' = l.code? w := by unfold code?; rw [he]
  rw [show l.instance? w' k = l.instance? w k by unfold instance?; rw [he, hi]] at hk
  rw [hcode]
  exact (h.fields l hl k inst hk p hp).mono hL subset_rfl

theorem Coherent.marks_eq (hc : Coherent ls opened w) {l' : Loader} (hl : l ∈ ls) (hl' : l' ∈ ls)
    {k : String} {id : EntryId} (hk : l.modules.get? k = some id)
    (hk' : l'.modules.get? k = some id) : marks (l'.code? w) k = marks (l.code? w) k := by
  refine ModuleCode.marks_congr (fun k => l'.modules.get? k = l.modules.get? k) ?_ ?_
    (hk'.trans hk.symm)
  · intro k hk
    unfold code?
    rw [hk]
  · intro k c hk hcode i hi
    obtain ⟨id, hid, _⟩ := Option.bind_eq_some_iff.mp hcode
    exact (hc.shares l hl l' hl' k id c hid (hk.trans hid) hcode i hi).symm

/-- A module has been linked. -/
theorem Placed.setInstance (h : Placed ls S L w) (hc : Coherent ls opened w) (hl : l ∈ ls)
    {name : String} {id : EntryId} {e : Entry} {inst : Instance}
    (hk : l.modules.get? name = some id) (he : w.entries[id]? = some e) (hn : e.linked = none)
    (hf : ∀ p ∈ inst.fields, p.2.Inside L (marks (l.code? w) name ∪ S)) :
    Placed ls S L (setInstance w id inst) := by
  refine ⟨h.rests, fun l' hl' k inst' hinst => ?_⟩
  have hcode : l'.code? (Loader.setInstance w id inst) = l'.code? w :=
    funext fun k => code?_keeps (hc.keyed l' hl') (keeps_setInstance he hn inst)
  rw [hcode]
  rcases instance?_setInstance hc hl' he hinst with ⟨hk', rfl⟩ | hold
  · -- every loader has the entry for the same name
    obtain ⟨e₁, he₁, hn₁⟩ := (hc.keyed l hl).get? hk
    obtain ⟨e₂, he₂, hn₂⟩ := (hc.keyed l' hl').get? hk'
    obtain rfl : k = name := by rw [← hn₁, ← hn₂, Option.some.inj (he₁.symm.trans he₂)]
    rw [hc.marks_eq hl hl' hk hk']
    exact hf
  · exact h.fields l' hl' k inst' hold

/-! ## Linking -/

/-- There are labels for more than before, and all is still in its place. -/
def Stays (ls : List Loader) (S : Marks) (L : Labels) (w : World) : Prop :=
  ∃ L', L.Extends L' ∧ Placed ls S L' w

theorem Placed.stays (h : Placed ls S L w) : Stays ls S L w := ⟨L, .refl L, h⟩

theorem Stays.trans (h : Stays ls S L' w) (hL : L.Extends L') : Stays ls S L w := by
  obtain ⟨L'', hL', h⟩ := h
  exact ⟨L'', hL.trans hL', h⟩

/-- Strict definitions are evaluated; errors are placed where their fields lead. -/
theorem placed_evalStrict {set : Setting} (hlib : set.host.Relays) (mod : String)
    {fields : Table Value} (ds : List Definition) :
    ∀ (steps : Nat) (w : World) (L : Labels), Placed ls S L w →
      (∀ p ∈ fields, p.2.Inside L M) →
      (evalStrict set mod fields steps ds).Meets w
        (fun _ w' => Stays ls S L w') (fun e w' => Stays ls S L w' ∧ e.Inside M) := by
  induction ds with
  | nil => exact fun _ w L h _ => Act.meets_pure h.stays
  | cons d ds ih =>
    intro steps w L h hf
    unfold evalStrict
    split
    · refine Act.meets_bind (Act.meets_during (Act.meets_evaluate ?_))
      have hv : ((fields.get? d.binding.name).getD .unit).Inside L M := by
        cases hx : fields.get? d.binding.name with
        | none => exact .alone rfl
        | some v => exact hf _ (Table.mem_of_get? hx)
      have hidle := EvalState.idle_force (s := Act.start steps w) set h.rests.idle
        ((fields.get? d.binding.name).getD .unit)
      obtain ⟨L', hL, hh, hr⟩ :=
        EvalState.inside_force (s := Act.start steps w) hlib h.rests.inside h.rests.idle hv
      generalize EvalState.force set _ _ = p at hidle hh hr ⊢
      obtain ⟨r, s⟩ := p
      have h' : Placed ls S L' (Act.finish w s) := h.setHeap hL ⟨hh, hidle⟩ rfl rfl
      cases r with
      | ok v =>
        refine (ih s.steps _ L' h' fun p hp => (hf p hp).mono hL subset_rfl).mono ?_ ?_
        · exact fun _ _ hs => hs.trans hL
        · exact fun _ _ hs => ⟨hs.1.trans hL, hs.2⟩
      | error e =>
        refine ⟨h'.stays.trans hL, fun err he => ?_⟩
        cases he
        exact hr
    · exact ih _ _ _ h hf

/-- Linking by `linkOne` keeps everything in its place, and errors are placed where imports lead. -/
def PlacedLinks (ls : List Loader) (S : Marks) (l : Loader) (linkOne : String → Act InstanceId) :
    Prop :=
  ∀ name opened w L, Coherent ls opened w → (∀ s ∈ opened, s < w.heap.scopes.size) →
    Placed ls S L w →
    (linkOne name).Meets w (fun _ w' => Stays ls S L w')
      (fun e w' => Stays ls S L w' ∧ e.Inside (marks (l.code? w) name ∪ S))

variable {visiting own : List String} {root scope : ScopeId} {linkOne : String → Act InstanceId}

theorem placed_linkImports (hone : Links ls l visiting linkOne) (hplaced : PlacedLinks ls S l linkOne)
    (hl : l ∈ ls) (hk : l.Keyed w) (name : String) (ho : ∀ s ∈ opened, s < w.heap.scopes.size)
    (is : List String) (hM : ∀ i ∈ is, marks (l.code? w) i ∪ S ⊆ M) :
    ∀ (done : List String) (w' : World) (L : Labels),
      Imports ls opened l visiting own root scope w done w' → L.scopes scope = some M →
      Placed ls S L w' →
      (linkImports linkOne name scope own is).Meets w'
        (fun _ w'' => Stays ls S L w'') (fun e w'' => Stays ls S L w'' ∧ e.Inside M) := by
  induction is with
  | nil => exact fun done w' L _ _ h => Act.meets_pure h.stays
  | cons i is ih =>
    intro done w' L hI hs h
    obtain ⟨hi, hM⟩ := List.forall_mem_cons.mp hM
    have hcode : l.code? w' = l.code? w := funext fun k => code?_keeps hk hI.keeps
    have hopen := hI.opened_lt ho
    have hboth := (hone i _ w' hI.coherent hopen).and (hplaced i _ w' L hI.coherent hopen h)
    refine Act.meets_bind (Act.meets_during (hboth.mono ?_ ?_))
    · rintro inst w'' ⟨⟨ha, hh⟩, L', hL, h'⟩
      obtain ⟨j, hj, hinst⟩ := hh.instance? ha.coherent hl
      refine Act.meets_get_bind (Act.meets_set_bind ?_)
      rw [hj]
      have hcode' : l.code? w'' = l.code? w' :=
        funext fun k => code?_keeps (hI.coherent.keyed l hl) ha.keeps
      have hfields : ∀ p ∈ j.fields, p.2.Inside L' M := by
        intro p hp
        have hin := h'.fields l hl i j hinst p hp
        rw [hcode', hcode] at hin
        exact hin.mono (.refl _) hi
      have hs' := hL.scopes _ _ hs
      have hr := h'.rests.importFields hs' own i hfields
      refine (ih hM _ _ L' (hI.snoc ha hinst) hs' (h'.setHeap (.refl _) hr rfl rfl)).mono ?_ ?_
      · exact fun _ _ hst => hst.trans hL
      · exact fun _ _ hst => ⟨hst.1.trans hL, hst.2⟩
    · rintro e w'' ⟨-, hst, he⟩
      rw [hcode] at he
      exact ⟨hst, fun err herr => (he err herr).mono hi⟩

theorem placed_makeInstance {set : Setting} (hlib : set.host.Relays) {name : String}
    (hone : Links ls l (visiting ++ [name]) linkOne) (hplaced : PlacedLinks ls S l linkOne)
    (hl : l ∈ ls) {id : EntryId} {e : Entry} (hc : Coherent ls opened w)
    (ho : ∀ s ∈ opened, s < w.heap.scopes.size) (h : Placed ls S L w)
    (hk : l.modules.get? name = some id) (he : w.entries[id]? = some e) (hn : e.linked = none) :
    (makeInstance set linkOne id name e.code).Meets w (fun _ w' => Stays ls S L w')
      (fun err w' => Stays ls S L w' ∧ err.Inside (marks (l.code? w) name ∪ S)) := by
  have hcode : l.code? w name = some e.code := by simp [code?, hk, he]
  rw [makeInstance_eq]
  refine Act.meets_get_bind (Act.meets_set_bind (Act.meets_bind ?_))
  have hsize := newModuleScope_fst w.heap
  have hempty := scope_newModuleScope w.heap
  have g₁ := grows_newModuleScope w.heap
  obtain ⟨L₁, hL₁, hr₁, hs₁⟩ := h.rests.newModuleScope (marks (l.code? w) name ∪ S)
  generalize newModuleScope w.heap = p at *
  obtain ⟨scope, h₁⟩ := p
  simp only at hsize hempty g₁ hr₁ hs₁ ⊢
  -- so far there is an empty scope, and no import has been linked
  have hI : Imports ls opened l (visiting ++ [name]) e.code.exports w.heap.scopes.size scope
      { w with heap := h₁ } [] { w with heap := h₁ } :=
    { coherent := (hc.open_new (hsize ▸ Nat.le_succ _)).keeps_heap (g₁.fills _) rfl rfl
      keeps := .refl _ _
      visited := fun _ _ _ _ => rfl
      scope := hempty
      imports := fun _ hi => absurd hi List.not_mem_nil }
  have ho₁ : ∀ s ∈ opened, s < h₁.scopes.size :=
    fun s hs => Nat.lt_of_lt_of_le (ho s hs) g₁.scopes_size
  have h₁' : Placed ls S L₁ { w with heap := h₁ } := h.setHeap hL₁ hr₁ rfl rfl
  have himports := meets_linkImports hone hl name ho₁ e.code.imports [] _ hI
  have hstays := placed_linkImports hone hplaced hl (hI.coherent.keyed l hl) name ho₁
    e.code.imports (fun i hi => Set.union_subset_union_left S (ModuleCode.marks_import hcode hi))
    [] _ L₁ hI hs₁ h₁'
  refine (himports.and hstays).mono ?_ fun err w₂ hend => ⟨hend.2.1.trans hL₁, hend.2.2⟩
  rintro _ w₂ ⟨hI₂, L₂, hL₂, h₂⟩
  rw [List.nil_append] at hI₂
  refine Act.meets_get_bind (Act.meets_set_bind (Act.meets_bind ?_))
  have hcode₂ : l.code? w₂ = l.code? w :=
    funext fun k => code?_keeps (w := { w with heap := h₁ }) (hI.coherent.keyed l hl) hI₂.keeps
  have hent : w₂.entries[id]? = some e := by
    rw [hI₂.visited _ (by simp) id hk]
    exact he
  have hd := defined_defineAll scope e.code.defs w₂.heap
  have hidle := (adds_defineAll scope e.code.defs w₂.heap).idle h₂.rests.idle
  -- the definitions are code of the module itself
  obtain ⟨L₃, hL₃, hh₃, hf⟩ := h₂.rests.inside.define (hL₂.scopes _ _ hs₁) fun d hd =>
    (ModuleCode.lies_of_mem_defs hcode hd).mono Set.subset_union_left
  generalize defineAll scope e.code.defs w₂.heap = p at hd hidle hh₃ hf ⊢
  obtain ⟨fields, h₃⟩ := p
  simp only at hd hidle hh₃ hf ⊢
  have hL := hL₁.trans (hL₂.trans hL₃)
  have h₃' : Placed ls S L₃ { w₂ with heap := h₃ } := h₂.setHeap hL₃ ⟨hh₃, hidle⟩ rfl rfl
  have hstrict := meets_evalStrict (w := { w₂ with heap := h₃ }) set name fields e.code.defs
    0 _ (.refl _ _) rfl rfl
  refine (hstrict.and (placed_evalStrict hlib name e.code.defs 0 _ L₃ h₃' hf)).mono ?_ ?_
  · rintro _ w₄ ⟨⟨g, hi₄, he₄⟩, L₄, hL₄, h₄⟩
    have hc₄ : Coherent ls opened w₄ := by
      have hfills : w₂.heap.Fills [scope] w₄.heap := hd.fills.trans (g.fills _)
      exact (hI₂.coherent.keeps_heap (hfills.mono (by simp)) hi₄ he₄).mono
        fun s hm => List.mem_cons_of_mem _ hm
    have hcode₄ : l.code? w₄ = l.code? w := by
      rw [← hcode₂]
      unfold code?
      rw [he₄]
    refine Act.meets_get_bind (Act.meets_set_bind (Act.meets_pure ⟨L₄, hL.trans hL₄, ?_⟩))
    refine h₄.setInstance hc₄ hl hk (by rw [he₄, hent]) hn fun p hp => ?_
    rw [hcode₄]
    exact (hf p hp).mono hL₄ subset_rfl
  · exact fun err w₄ hend => ⟨hend.2.1.trans hL, hend.2.2⟩

/-- Linking keeps everything in its place. Its errors are placed in the code of modules that imports
lead to. -/
theorem placed_link {set : Setting} (hlib : set.host.Relays) (hl : l ∈ ls) (fuel : Nat) :
    ∀ visiting, PlacedLinks ls S l (link set l fuel visiting) := by
  induction fuel with
  | zero => exact fun _ _ _ _ L _ _ h => Act.meets_throw ⟨h.stays, Error.inside_of_eq_none rfl⟩
  | succ fuel ih =>
    intro visiting name opened w L hc ho h
    unfold link
    refine Act.meets_get_bind ?_
    split
    · exact Act.meets_throw ⟨h.stays, Error.inside_of_eq_none rfl⟩
    · rename_i id e hid
      obtain ⟨id', hk, hid⟩ := Option.bind_eq_some_iff.mp hid
      obtain ⟨e', he, heq⟩ := Option.map_eq_some_iff.mp hid
      obtain ⟨rfl, rfl⟩ := Prod.mk.inj heq
      split
      · exact Act.meets_throw ⟨h.stays, Error.inside_of_eq_none rfl⟩
      · split
        · exact Act.meets_pure h.stays
        · rename_i hn
          exact placed_makeInstance hlib (meets_link set hl fuel _) (ih _) hl hc ho h hk he hn

end

end Loader

end LazySession
