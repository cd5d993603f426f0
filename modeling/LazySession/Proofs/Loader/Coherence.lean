import LazySession.Proofs.Loader.Linking
import Mathlib.Logic.Relation

/-!
# Loaders that share entries

Loaders are made from one another, and any of them may be used at any time. `Family.Step` is one
use. `Family.coherent_steps`: along all uses, modules are linked only against what their loaders
hold, and stay as they were linked.
-/

namespace LazySession

/-- In the loader, the module `m` imports `n`. -/
def Loader.Uses (l : Loader) (w : World) (m n : String) : Prop :=
  ∃ c, l.code? w m = some c ∧ n ∈ c.imports

/-- Loaders that were made from one another, and the world that they share. -/
structure Family where
  world : World
  loaders : List Loader

namespace Family

/-- Something is done with the loaders or with an instance. All of it may fail but the making of a
loader, and there may be other work in between. -/
inductive Step : Family → Family → Prop
  | extend {w : World} {ls : List Loader} {l : Loader} (hl : l ∈ ls) (mods : List ModuleCode) :
    Step ⟨w, ls⟩ ⟨(l.extend mods w).2, (l.extend mods w).1 :: ls⟩
  | load {w : World} {ls : List Loader} {l : Loader} (hl : l ∈ ls) (set : Setting)
    (name : String) : Step ⟨w, ls⟩ ⟨((l.load set name).run w).2, ls⟩
  | read {w : World} {ls : List Loader} (i : Instance) (set : Setting) (field : String) :
    Step ⟨w, ls⟩ ⟨((i.read set field).run w).2, ls⟩
  | write {w : World} {ls : List Loader} (i : Instance) (field : String) (v : HostValue) :
    Step ⟨w, ls⟩ ⟨((i.write field v).run w).2, ls⟩
  | other {w : World} {ls : List Loader} (cache : Cache Parsed) (context : Context) :
    Step ⟨w, ls⟩ ⟨{ w with cache, context }, ls⟩

/-- Any number of steps. -/
abbrev Steps : Family → Family → Prop := Relation.ReflTransGen Step

/-- The modules of all loaders fit together. -/
def Coherent (f : Family) : Prop := Loader.Coherent f.loaders [] f.world

/-- `g` comes after `f`: the loaders are still there, and so is all that was linked. -/
structure Later (f g : Family) : Prop where
  loaders : f.loaders ⊆ g.loaders
  world : f.world.Keeps [] g.world

theorem Later.refl (f : Family) : f.Later f := ⟨List.Subset.refl _, .refl _ _⟩

theorem Later.trans {f g h : Family} (fg : f.Later g) (gh : g.Later h) : f.Later h :=
  ⟨List.Subset.trans fg.loaders gh.loaders, fg.world.trans gh.world⟩

theorem coherent_empty (w : World) : Coherent ⟨w, [.empty]⟩ where
  keyed l hl := by
    rw [List.mem_singleton.mp hl]
    exact Loader.keyed_empty w
  shares l hl _ _ k id _ hk := by
    rw [List.mem_singleton.mp hl] at hk
    cases hk
  linked l hl k id _ _ hk := by
    rw [List.mem_singleton.mp hl] at hk
    cases hk

/-! ## New loaders -/

section
variable {w : World} {ls : List Loader} {l : Loader}

theorem keeps_extend (hk : l.Keyed w) (mods : List ModuleCode) :
    w.Keeps [] (l.extend mods w).2 ∧
      ∀ (id : EntryId) (e : Entry), w.entries[id]? = some e →
        (l.extend mods w).2.entries[id]? = some e := by
  obtain ⟨_, _, r, _⟩ := Loader.renews_extend hk mods
  have hold : ∀ (id : EntryId) (e : Entry), w.entries[id]? = some e →
      (l.extend mods w).2.entries[id]? = some e := by
    intro id e he
    rw [r.old id (Array.getElem?_eq_some_iff.mp he).1, he]
  refine ⟨⟨?_, ?_, fun id e he => ⟨e.linked, hold id e he, fun _ hi => hi⟩⟩, hold⟩
  · rw [r.world]
    exact .refl _ _
  · rw [r.world]
    exact fun _ _ h => h

theorem coherent_extend (hc : Coherent ⟨w, ls⟩) (hl : l ∈ ls) (mods : List ModuleCode) :
    Coherent ⟨(l.extend mods w).2, (l.extend mods w).1 :: ls⟩ := by
  have hk := hc.keyed l hl
  obtain ⟨codes, fresh, r, _, _, hclosed⟩ := Loader.renews_extend hk mods
  obtain ⟨hkeeps, hold⟩ := keeps_extend hk mods
  have hc' : Loader.Coherent ls [] (l.extend mods w).2 := by
    refine hc.keeps hkeeps ?_
    intro l' _ k id e i _ he hn he'
    rw [hold id e he] at he'
    have := congrArg Entry.linked (Option.some.inj he')
    rw [hn] at this
    cases this
  generalize l.extend mods w = p at *
  obtain ⟨l', w'⟩ := p
  simp only at *
  -- an entry that was there before is shared with `l`, and so are those of the imports
  have hshare : ∀ k id c, l'.modules.get? k = some id → id < w.entries.size →
      l'.code? w' k = some c → l.modules.get? k = some id ∧ l.code? w k = some c ∧
        ∀ i ∈ c.imports, l'.modules.get? i = l.modules.get? i := by
    intro k id c hid hlt hcode
    have hf : k ∉ fresh := by
      intro hf
      obtain ⟨id', _, hid', hge, _⟩ := r.new k hf
      rw [hid] at hid'
      cases hid'
      exact Nat.not_le_of_lt hlt hge
    have hid' := hid
    rw [r.kept k hf] at hid'
    have hcode' : l.code? w k = some c := by
      rw [← hcode]
      simp [Loader.code?, hid, hid', r.old id hlt]
    exact ⟨hid', hcode', fun i hi => r.kept i (hclosed k c hf hcode' i hi)⟩
  -- the ids of the other loaders were there before
  have hlt : ∀ l₂ ∈ ls, ∀ k id, l₂.modules.get? k = some id → id < w.entries.size := by
    intro l₂ hl₂ k id hid
    obtain ⟨e, he, _⟩ := (hc.keyed l₂ hl₂).get? hid
    exact (Array.getElem?_eq_some_iff.mp he).1
  refine ⟨?_, ?_, ?_⟩
  · intro l₁ hl₁
    rcases List.mem_cons.mp hl₁ with rfl | hl₁
    · exact r.keyed
    · exact hc'.keyed l₁ hl₁
  · intro l₁ hl₁ l₂ hl₂ k id c h₁ h₂ hcode i hi
    rcases List.mem_cons.mp hl₁ with rfl | hm₁ <;> rcases List.mem_cons.mp hl₂ with rfl | hm₂
    · rfl
    · obtain ⟨hid, hcode', him⟩ := hshare k id c h₁ (hlt l₂ hm₂ k id h₂) hcode
      rw [him i hi]
      exact hc.shares l hl l₂ hm₂ k id c hid h₂ hcode' i hi
    · have hcode₂ : l₂.code? w' k = some c := by
        rw [← hcode]
        simp [Loader.code?, h₁, h₂]
      obtain ⟨hid, hcode', him⟩ := hshare k id c h₂ (hlt l₁ hm₁ k id h₁) hcode₂
      rw [him i hi]
      exact (hc.shares l hl l₁ hm₁ k id c hid h₁ hcode' i hi).symm
    · exact hc'.shares l₁ hm₁ l₂ hm₂ k id c h₁ h₂ hcode i hi
  · intro l₁ hl₁ k id e i hid he hi
    rcases List.mem_cons.mp hl₁ with rfl | hl₁
    · by_cases hlt : id < w.entries.size
      · have hcode : l₁.code? w' k = some e.code := by simp [Loader.code?, hid, he]
        obtain ⟨hid', _, him⟩ := hshare k id e.code hid hlt hcode
        obtain ⟨inst, root, scope, hinst, hr, hs, hlk⟩ := hc'.linked l hl k id e i hid' he hi
        exact ⟨inst, root, scope, hinst, hr, hs, hlk.congr fun j hj => (him j hj).symm⟩
      · -- fresh entries are not linked
        have hf : k ∈ fresh := by
          refine Classical.byContradiction fun hf => ?_
          rw [r.kept k hf] at hid
          obtain ⟨e', he', _⟩ := hk.get? hid
          exact hlt (Array.getElem?_eq_some_iff.mp he').1
        obtain ⟨id', c, hid', _, he', _⟩ := r.new k hf
        rw [hid] at hid'
        cases hid'
        rw [he] at he'
        cases he'
        cases hi
    · exact hc'.linked l₁ hl₁ k id e i hid he hi

/-- Loaders that were there see what they saw. The new one sees the code of the one it was made from
outside of `fresh`, and linked modules only there. No imports lead in there. -/
theorem seen_extend (hc : Coherent ⟨w, ls⟩) (hl : l ∈ ls) (mods : List ModuleCode) :
    (∀ l₁ ∈ ls, l₁.code? (l.extend mods w).2 = l₁.code? w ∧
      l₁.instance? (l.extend mods w).2 = l₁.instance? w) ∧
    ∃ fresh : List String,
      (∀ k, k ∉ fresh → (l.extend mods w).1.code? (l.extend mods w).2 k = l.code? w k) ∧
      (∀ k c, k ∉ fresh → l.code? w k = some c → ∀ i ∈ c.imports, i ∉ fresh) ∧
      ∀ k inst, (l.extend mods w).1.instance? (l.extend mods w).2 k = some inst →
        k ∉ fresh ∧ l.instance? w k = some inst := by
  obtain ⟨codes, fresh, r, _, _, hclosed⟩ := Loader.renews_extend (hc.keyed l hl) mods
  generalize l.extend mods w = p at r ⊢
  obtain ⟨l', w'⟩ := p
  simp only at r ⊢
  have hinstances : w'.instances = w.instances := by rw [r.world]
  have hsame : ∀ l₁ ∈ ls, l₁.code? w' = l₁.code? w ∧ l₁.instance? w' = l₁.instance? w := by
    intro l₁ hl₁
    have hold : ∀ k id, l₁.modules.get? k = some id → w'.entries[id]? = w.entries[id]? := by
      intro k id hid
      obtain ⟨e, he, _⟩ := (hc.keyed l₁ hl₁).get? hid
      exact r.old id (Array.getElem?_eq_some_iff.mp he).1
    constructor <;> funext k
    · unfold Loader.code?
      cases hg : l₁.modules.get? k with
      | none => rfl
      | some id => simp [hold k id hg]
    · unfold Loader.instance?
      cases hg : l₁.modules.get? k with
      | none => rfl
      | some id => simp [hold k id hg, hinstances]
  obtain ⟨hcode, hinst⟩ := hsame l hl
  refine ⟨hsame, fresh, fun k hf => ?_, hclosed, fun k inst h => ?_⟩
  · rw [← hcode]
    unfold Loader.code?
    rw [r.kept k hf]
  · have hf : k ∉ fresh := by
      intro hf
      obtain ⟨id, code, hid, _, he, _⟩ := r.new k hf
      simp [Loader.instance?, hid, he] at h
    refine ⟨hf, ?_⟩
    rw [← hinst, ← h]
    unfold Loader.instance?
    rw [r.kept k hf]

end

/-! ## Steps -/

section
variable {f g : Family}

theorem coherent_heap {w w' : World} {ls : List Loader} (hc : Coherent ⟨w, ls⟩)
    (f : w.heap.Fills [] w'.heap) (hi : w'.instances = w.instances) (he : w'.entries = w.entries) :
    Coherent ⟨w', ls⟩ ∧ Later ⟨w, ls⟩ ⟨w', ls⟩ :=
  ⟨hc.keeps_heap f hi he, List.Subset.refl _, .of_heap f hi he⟩

theorem coherent_load {w : World} {ls : List Loader} {l : Loader} (hc : Coherent ⟨w, ls⟩)
    (hl : l ∈ ls) (set : Setting) (name : String) :
    Coherent ⟨((l.load set name).run w).2, ls⟩ ∧
      Later ⟨w, ls⟩ ⟨((l.load set name).run w).2, ls⟩ := by
  refine Act.Meets.world (P := fun w' => Coherent ⟨w', ls⟩ ∧ Later ⟨w, ls⟩ ⟨w', ls⟩) ?_
  refine Act.meets_bind (Act.meets_inquire fun patience => ?_)
  have h₁ : Coherent ⟨{ w with context := { w.context with patience } }, ls⟩ ∧ Later ⟨w, ls⟩ _ :=
    coherent_heap hc (.refl _ _) rfl rfl
  refine ⟨(Loader.meets_link set hl _ [] name [] _ h₁.1 (by simp)).mono ?_ ?_, h₁⟩
  · rintro _ w' ⟨ha, _⟩
    exact ⟨ha.coherent, h₁.2.trans ⟨List.Subset.refl _, ha.keeps⟩⟩
  · intro _ w' ha
    exact ⟨ha.coherent, h₁.2.trans ⟨List.Subset.refl _, ha.keeps⟩⟩

theorem coherent_read {w : World} {ls : List Loader} (hc : Coherent ⟨w, ls⟩) (i : Instance)
    (set : Setting) (field : String) :
    Coherent ⟨((i.read set field).run w).2, ls⟩ ∧
      Later ⟨w, ls⟩ ⟨((i.read set field).run w).2, ls⟩ := by
  refine Act.Meets.world (P := fun w' => Coherent ⟨w', ls⟩ ∧ Later ⟨w, ls⟩ ⟨w', ls⟩) ?_
  refine Act.meets_bind (Act.meets_inquire fun patience => ⟨?_, coherent_heap hc (.refl _ _) rfl rfl⟩)
  split
  · exact Act.meets_throw (coherent_heap hc (.refl _ _) rfl rfl)
  · rename_i v _
    refine Act.meets_bind (Act.meets_evaluate ?_)
    have g := EvalState.grows_force set
      (Act.start 0 { w with context := { w.context with patience } }) v
    split <;> rename_i hr <;> rw [hr] at g
    · exact Act.meets_get_bind (Act.meets_pure (coherent_heap hc (g.fills _) rfl rfl))
    · exact coherent_heap hc (g.fills _) rfl rfl

theorem coherent_write {w : World} {ls : List Loader} (hc : Coherent ⟨w, ls⟩) (i : Instance)
    (field : String) (v : HostValue) :
    Coherent ⟨((i.write field v).run w).2, ls⟩ ∧
      Later ⟨w, ls⟩ ⟨((i.write field v).run w).2, ls⟩ := by
  refine Act.Meets.world (P := fun w' => Coherent ⟨w', ls⟩ ∧ Later ⟨w, ls⟩ ⟨w', ls⟩) ?_
  unfold Instance.write
  split
  · exact Act.meets_throw (coherent_heap hc (.refl _ _) rfl rfl)
  · refine Act.meets_get_bind ?_
    split
    · exact Act.meets_set (coherent_heap hc (Heap.fills_setCell _ _ _) rfl rfl)
    · exact Act.meets_throw (coherent_heap hc (.refl _ _) rfl rfl)

theorem coherent_step (hc : f.Coherent) (h : Step f g) : g.Coherent ∧ f.Later g := by
  cases h with
  | @extend w ls l hl mods =>
    exact ⟨coherent_extend hc hl mods, List.subset_cons_self _ _,
      (keeps_extend (hc.keyed _ hl) mods).1⟩
  | load hl set name => exact coherent_load hc hl set name
  | read i set field => exact coherent_read hc i set field
  | write i field v => exact coherent_write hc i field v
  | other cache context => exact coherent_heap hc (.refl _ _) rfl rfl

theorem coherent_steps (hc : f.Coherent) (h : Steps f g) : g.Coherent ∧ f.Later g := by
  induction h with
  | refl => exact ⟨hc, .refl f⟩
  | tail _ step ih =>
    obtain ⟨hc', hl⟩ := coherent_step ih.1 step
    exact ⟨hc', ih.2.trans hl⟩

end

/-! ## What every family has -/

/-- Loaders with the same entry for a module have the same entries, or both none, for everything
that it imports, directly or not. -/
def SharesImports (f : Family) : Prop :=
  ∀ l ∈ f.loaders, ∀ l' ∈ f.loaders, ∀ k id, l.modules.get? k = some id →
    l'.modules.get? k = some id →
    ∀ n, Relation.TransGen (l.Uses f.world) k n → l.modules.get? n = l'.modules.get? n

/-- The names in the scope of a module that the module does not define are fields of the instances
that the loader now holds for its imports. -/
def SeesHeld (w : World) (l : Loader) (code : ModuleCode) (scope : ScopeId) : Prop :=
  ∀ x v, (w.heap.vars scope).get? x = some v → x ∉ code.exports →
    ∃ n ∈ code.imports, ∃ held, l.instance? w n = some held ∧
      ∃ y, (y, v) ∈ held.fields ∧ (x = n ++ "." ++ y ∨ x = y)

/-- A module whose entry in a loader is linked sees what the loader holds for its imports. Whatever
is done afterwards, its entry, its instance and its scope stay the same, and it still does. -/
def LinkedToHeld (f : Family) : Prop :=
  ∀ l ∈ f.loaders, ∀ (k : String) (id : EntryId) (e : Entry) (i : InstanceId),
    l.modules.get? k = some id → f.world.entries[id]? = some e → e.linked = some i →
    ∃ inst root scope, f.world.instances[i]? = some inst ∧
      ∀ g, Steps f g → l ∈ g.loaders ∧ g.world.entries[id]? = some e ∧
        g.world.instances[i]? = some inst ∧
        g.world.heap.scopes[scope]? = f.world.heap.scopes[scope]? ∧
        l.Linked g.world e.code inst root scope ∧ SeesHeld g.world l e.code scope

section
variable {f : Family}

theorem Coherent.sharesImports (hc : f.Coherent) : f.SharesImports := by
  intro l hl l' hl' k id hk hk' n huses
  induction huses with
  | single h =>
    obtain ⟨c, hcode, hn⟩ := h
    exact hc.shares l hl l' hl' k id c hk hk' hcode _ hn
  | tail _ h ih =>
    obtain ⟨c, hcode, hn⟩ := h
    obtain ⟨id', hid', _⟩ := Option.bind_eq_some_iff.mp hcode
    exact hc.shares l hl l' hl' _ id' c hid' (ih ▸ hid') hcode _ hn

theorem seesHeld_of_linked {w : World} {l : Loader} {code : ModuleCode} {inst : Instance}
    {root scope : ScopeId} (h : l.Linked w code inst root scope) : SeesHeld w l code scope := by
  intro x v hx hown
  obtain ⟨vars, hs, hvars⟩ := h.scope
  have hnone : inst.fields.get? x = none := by
    rw [Table.get?_eq_none, h.names]
    exact hown
  rw [Heap.vars, hs, Option.map_some, Option.getD_some, hvars, hnone, Option.none_or] at hx
  obtain ⟨n, hn, held, hheld, y, hy, hxy⟩ := Loader.mem_importedNames hx
  exact ⟨n, hn, held, hheld, y, hy, hxy.imp_right And.left⟩

theorem Coherent.linkedToHeld (hc : f.Coherent) : f.LinkedToHeld := by
  intro l hl k id e i hk he hi
  obtain ⟨inst, root, scope, hinst, _, _, hlk⟩ := hc.linked l hl k id e i hk he hi
  refine ⟨inst, root, scope, hinst, fun g hg => ?_⟩
  obtain ⟨_, hlater⟩ := coherent_steps hc hg
  obtain ⟨linked, he', hlinked⟩ := hlater.world.entries id e he
  obtain rfl : linked = e.linked := by rw [hi, hlinked i hi]
  have hlk' := hlk.keeps hlater.world List.not_mem_nil List.not_mem_nil
  obtain ⟨vars, hs, _⟩ := hlk.scope
  refine ⟨hlater.loaders hl, he', hlater.world.instances i inst hinst, ?_, hlk', seesHeld_of_linked hlk'⟩
  rw [hs, hlater.world.heap.scopes _ _ List.not_mem_nil hs]

/-- However loaders are made from an empty one and used, no module is linked
against another version of an import than its loader holds. -/
theorem links_cohere {w : World} (hf : Steps ⟨w, [.empty]⟩ f) :
    f.SharesImports ∧ f.LinkedToHeld := by
  obtain ⟨hc, _⟩ := coherent_steps (coherent_empty w) hf
  exact ⟨hc.sharesImports, hc.linkedToHeld⟩

/-- A module that is linked, then gets another version of its import and is linked again. -/
theorem links_cohere_relinked : ∃ (f : Family) (l l' : Loader), f.loaders = [l', l, .empty] ∧
    (l.instance? f.world "A").isSome ∧ (l'.instance? f.world "A").isSome ∧
    l.modules.get? "A" ≠ l'.modules.get? "A" ∧ f.SharesImports ∧ f.LinkedToHeld := by
  refine ⟨_, _, _, rfl, ?_, ?_, ?_, links_cohere (w := { cache := .disabled })
    (.tail (.tail (.tail (.tail .refl
      (.extend List.mem_cons_self
        [⟨"A", ["B"], [⟨⟨⟨1, 1⟩, "y", [], false, .var ⟨1, 5⟩ "x"⟩, "A", none⟩]⟩,
         ⟨"B", [], [⟨⟨⟨1, 1⟩, "x", [], false, .int ⟨1, 5⟩ 1⟩, "B", none⟩]⟩]))
      (.load List.mem_cons_self ⟨.empty, 10⟩ "A"))
      (.extend List.mem_cons_self
        [⟨"B", [], [⟨⟨⟨1, 1⟩, "x", [], false, .int ⟨1, 5⟩ 2⟩, "B", none⟩]⟩]))
      (.load List.mem_cons_self ⟨.empty, 10⟩ "A"))⟩
  all_goals decide +kernel

end

end Family

end LazySession
