import LazySession.Proofs.Loader.Names
import LazySession.Proofs.Scope.Scoped

/-!
# Sound ground

A ground is a part of the heap. It is sound if nothing in it leads out of it and if the code of its
closures and thunks has only variables that their scopes know. What is outside of the ground may be
anything: it belongs to modules that have not passed the checks.
-/

namespace LazySession

/-- A part of the heap. -/
structure Ground where
  scopes : ScopeId → Prop
  thunks : ThunkId → Prop
  cells : CellId → Prop

namespace Ground

def empty : Ground := ⟨fun _ => False, fun _ => False, fun _ => False⟩

/-- `G` is a part of `G'`. -/
structure Within (G G' : Ground) : Prop where
  scopes : ∀ id, G.scopes id → G'.scopes id
  thunks : ∀ id, G.thunks id → G'.thunks id
  cells : ∀ id, G.cells id → G'.cells id

theorem Within.refl (G : Ground) : G.Within G := ⟨fun _ h => h, fun _ h => h, fun _ h => h⟩

theorem Within.trans {G G' G'' : Ground} (h : G.Within G') (h' : G'.Within G'') : G.Within G'' :=
  ⟨fun id hi => h'.scopes id (h.scopes id hi), fun id hi => h'.thunks id (h.thunks id hi),
    fun id hi => h'.cells id (h.cells id hi)⟩

def addScope (G : Ground) (id : ScopeId) : Ground :=
  { G with scopes := fun i => i = id ∨ G.scopes i }

def addCell (G : Ground) (id : CellId) : Ground :=
  { G with cells := fun i => i = id ∨ G.cells i }

/-- The ground with the thunks among some values. -/
def addThunks (G : Ground) (fields : Table Value) : Ground :=
  { G with thunks := fun i => (∃ x, (x, .thunk i) ∈ fields) ∨ G.thunks i }

theorem within_addScope (G : Ground) (id : ScopeId) : G.Within (G.addScope id) :=
  ⟨fun _ h => .inr h, fun _ h => h, fun _ h => h⟩

theorem within_addCell (G : Ground) (id : CellId) : G.Within (G.addCell id) :=
  ⟨fun _ h => h, fun _ h => h, fun _ h => .inr h⟩

theorem within_addThunks (G : Ground) (fields : Table Value) : G.Within (G.addThunks fields) :=
  ⟨fun _ h => h, fun _ h => .inr h, fun _ h => h⟩

end Ground

/-! ## What a scope knows -/

namespace Heap

/-- The scope or one around it has the name. -/
def Knows (h : Heap) (scope : ScopeId) (x : String) : Prop := (h.lookup scope x).isSome

/-- All scopes know at least what they knew. -/
def Wider (h h' : Heap) : Prop := ∀ scope x, h.Knows scope x → h'.Knows scope x

theorem Wider.refl (h : Heap) : h.Wider h := fun _ _ hk => hk

theorem Wider.trans {h h' h'' : Heap} (hw : h.Wider h') (hw' : h'.Wider h'') : h.Wider h'' :=
  fun scope x hk => hw' scope x (hw scope x hk)

theorem lookup_eq {h : Heap} {id : ScopeId} {vars : Table Value} {outer : Option ScopeId}
    (hs : h.scopes[id]? = some ⟨vars, outer⟩) (x : String) :
    h.lookup id x = (vars.get? x).or (outer.bind fun o =>
      if o < id then h.lookup o x else none) := by
  rw [lookup]
  simp only [hs]
  cases vars.get? x <;> cases outer <;> rfl

theorem wider_of_scopes {h h' : Heap} (hs : ∀ (id : ScopeId) (s : Scope), h.scopes[id]? = some s →
    ∃ vars, h'.scopes[id]? = some ⟨vars, s.outer⟩ ∧
      ∀ x, (s.vars.get? x).isSome → (vars.get? x).isSome) : h.Wider h' := by
  intro id x
  induction id using Nat.strongRecOn with
  | _ id ih =>
    intro hk
    cases hi : h.scopes[id]? with
    | none =>
      rw [Knows, lookup] at hk
      simp [hi] at hk
    | some s =>
      obtain ⟨vars, outer⟩ := s
      obtain ⟨vars', hi', hv⟩ := hs id _ hi
      rw [Knows, lookup_eq hi, Option.isSome_or, Bool.or_eq_true] at hk
      rw [Knows, lookup_eq hi', Option.isSome_or, Bool.or_eq_true]
      refine hk.imp (hv x) fun hk => ?_
      cases outer with
      | none => exact hk
      | some o =>
        simp only [Option.bind_some] at hk ⊢
        split at hk
        · rename_i ho
          rw [if_pos ho]
          exact ih o ho hk
        · cases hk

theorem Grows.wider {T : ThunkId → Prop} {h h' : Heap} (g : h.Grows T h') : h.Wider h' :=
  wider_of_scopes fun id s hs => ⟨s.vars, g.scopes id s hs, fun _ hx => hx⟩

theorem wider_of_eq {h h' : Heap} (hs : h'.scopes = h.scopes) : h.Wider h' :=
  wider_of_scopes fun id s hi => ⟨s.vars, by rw [hs, hi], fun _ hx => hx⟩

theorem wider_setVar (h : Heap) (scope : ScopeId) (name : String) (v : Value) :
    h.Wider (h.setVar scope name v) := by
  refine wider_of_scopes fun id s hi => ?_
  by_cases he : scope = id
  · refine ⟨s.vars.put name v, by simp [scopes_setVar, he, hi], fun x hx => ?_⟩
    rw [Table.get?_put]
    split
    · rfl
    · exact hx
  · exact ⟨s.vars, by rw [scopes_setVar, if_neg he, hi], fun _ hx => hx⟩

theorem knows_iff {h : Heap} {id o : ScopeId} {vars : Table Value}
    (hs : h.scopes[id]? = some ⟨vars, some o⟩) (ho : o < id) (x : String) :
    h.Knows id x ↔ (vars.get? x).isSome ∨ h.Knows o x := by
  rw [Knows, lookup_eq hs]
  cases hx : vars.get? x <;> simp [Knows, ho]

end Heap

/-! ## Sound values -/

/-- The body has only variables that are parameters or known to the scope. -/
structure Closure.Sound (G : Ground) (h : Heap) (c : Closure) : Prop where
  scope : G.scopes c.scope
  body : c.body.Scoped fun x => Param.Binds c.params x ∨ h.Knows c.scope x

def Callable.Sound (G : Ground) (h : Heap) : Callable → Prop
  | .closure c => c.Sound G h
  | _ => True

/-- The value leads only to the ground. -/
inductive Value.Sound (G : Ground) (h : Heap) : Value → Prop
  | alone {v : Value} (hv : v.isAlone) : Sound G h v
  | closure {c : Closure} (hc : c.Sound G h) : Sound G h (.closure c)
  | partialApp {fn : Callable} {args : List Value} (hf : fn.Sound G h)
    (ha : ∀ a ∈ args, Sound G h a) : Sound G h (.partialApp fn args)
  | cell {id : CellId} (hid : G.cells id) : Sound G h (.cell id)
  | thunk {id : ThunkId} (hid : G.thunks id) : Sound G h (.thunk id)

/-- The names have sound values, and the scope around is older. -/
structure Scope.Sound (G : Ground) (h : Heap) (id : ScopeId) (s : Scope) : Prop where
  vars : ∀ x v, s.vars.get? x = some v → v.Sound G h
  outer : ∀ o, s.outer = some o → G.scopes o ∧ o < id

/-- The expression has only variables that its scope knows. -/
structure Thunk.Sound (G : Ground) (h : Heap) (t : Thunk) : Prop where
  code : ∀ e scope, t.code = some (e, scope) → G.scopes scope ∧ e.Scoped (h.Knows scope)
  done : ∀ v, t.state = .done v → v.Sound G h

/-- The ground is sound. -/
structure Heap.Sound (G : Ground) (h : Heap) : Prop where
  scopes : ∀ id, G.scopes id → ∃ s, h.scopes[id]? = some s ∧ s.Sound G h id
  thunks : ∀ id, G.thunks id → ∃ t, h.thunks[id]? = some t ∧ t.Sound G h
  cells : ∀ id, G.cells id → ∃ c, h.cells[id]? = some c ∧ ∀ v, c = some v → v.Sound G h

section
variable {G G' : Ground} {h h' : Heap}

theorem Heap.sound_empty (h : Heap) : h.Sound .empty := ⟨nofun, nofun, nofun⟩

theorem Value.isAlone_of_isPlain {v : Value} (h : v.isPlain) : v.isAlone := by
  cases v <;> first | rfl | cases h

theorem Closure.Sound.mono {c : Closure} (hc : c.Sound G h) (hG : G.Within G')
    (hw : h.Wider h') :
    c.Sound G' h' :=
  ⟨hG.scopes _ hc.scope, hc.body.mono fun x => Or.imp_right (hw _ x)⟩

theorem Callable.Sound.mono {fn : Callable} (hf : fn.Sound G h) (hG : G.Within G')
    (hw : h.Wider h') :
    fn.Sound G' h' := by
  cases fn with
  | closure c => exact Closure.Sound.mono hf hG hw
  | _ => trivial

theorem Value.Sound.mono {v : Value} (hv : v.Sound G h) (hG : G.Within G')
    (hw : h.Wider h') :
    v.Sound G' h' := by
  induction hv with
  | alone hv => exact .alone hv
  | closure hc => exact .closure (hc.mono hG hw)
  | partialApp hf _ ha => exact .partialApp (hf.mono hG hw) ha
  | cell hid => exact .cell (hG.cells _ hid)
  | thunk hid => exact .thunk (hG.thunks _ hid)

theorem Scope.Sound.mono {id : ScopeId} {s : Scope} (h₁ : s.Sound G h id) (hG : G.Within G')
    (hw : h.Wider h') :
    s.Sound G' h' id :=
  ⟨fun x v hx => (h₁.vars x v hx).mono hG hw,
    fun o ho => ⟨hG.scopes _ (h₁.outer o ho).1, (h₁.outer o ho).2⟩⟩

theorem Thunk.Sound.mono {t : Thunk} (h₁ : t.Sound G h) (hG : G.Within G')
    (hw : h.Wider h') :
    t.Sound G' h' where
  code e scope he := by
    obtain ⟨hscope, hsc⟩ := h₁.code e scope he
    exact ⟨hG.scopes _ hscope, hsc.mono (hw scope)⟩
  done v hv := (h₁.done v hv).mono hG hw

/-! ## Changes of the heap -/

namespace Heap

theorem Sound.grows {T : ThunkId → Prop} (hh : h.Sound G) (g : h.Grows T h')
    (hT : ∀ id, T id → ¬ G.thunks id) : h'.Sound G where
  scopes id hid := by
    obtain ⟨s, hs, hsound⟩ := hh.scopes id hid
    exact ⟨s, g.scopes id s hs, hsound.mono (.refl G) g.wider⟩
  thunks id hid := by
    obtain ⟨t, ht, hsound⟩ := hh.thunks id hid
    obtain ⟨state, ht', hstate⟩ := g.thunks id t ht
    obtain rfl := hstate fun hTid => hT id hTid hid
    exact ⟨t, ht', hsound.mono (.refl G) g.wider⟩
  cells id hid := by
    obtain ⟨c, hc, hv⟩ := hh.cells id hid
    exact ⟨c, g.cells id c hc, fun v hcv => (hv v hcv).mono (.refl G) g.wider⟩

/-- The ground grows: it is enough to look at what comes in. -/
theorem Sound.within (hh : h.Sound G) (hG : G.Within G')
    (hs : ∀ id, G'.scopes id → ¬ G.scopes id → ∃ s, h.scopes[id]? = some s ∧ s.Sound G' h id)
    (ht : ∀ id, G'.thunks id → ¬ G.thunks id → ∃ t, h.thunks[id]? = some t ∧ t.Sound G' h)
    (hc : ∀ id, G'.cells id → ¬ G.cells id →
      ∃ c, h.cells[id]? = some c ∧ ∀ v, c = some v → v.Sound G' h) : h.Sound G' where
  scopes id hid := by
    by_cases hold : G.scopes id
    · obtain ⟨s, hs, hsound⟩ := hh.scopes id hold
      exact ⟨s, hs, hsound.mono hG (.refl h)⟩
    · exact hs id hid hold
  thunks id hid := by
    by_cases hold : G.thunks id
    · obtain ⟨t, ht, hsound⟩ := hh.thunks id hold
      exact ⟨t, ht, hsound.mono hG (.refl h)⟩
    · exact ht id hid hold
  cells id hid := by
    by_cases hold : G.cells id
    · obtain ⟨c, hc, hv⟩ := hh.cells id hold
      exact ⟨c, hc, fun v hcv => (hv v hcv).mono hG (.refl h)⟩
    · exact hc id hid hold

/-- A scope with sound names comes into the ground. -/
theorem Sound.newScope (hh : h.Sound G) {vars : Table Value} {outer : Option ScopeId}
    (hv : ∀ x v, vars.get? x = some v → v.Sound G h)
    (ho : ∀ o, outer = some o → G.scopes o) :
    (h.newScope vars outer).2.Sound (G.addScope h.scopes.size) := by
  have g : h.Grows (fun _ => False) (h.newScope vars outer).2 := (Grows.refl _ h).newScope _ _
  have hG := G.within_addScope h.scopes.size
  refine (hh.grows g nofun).within hG ?_ (fun _ h hn => absurd h hn) fun _ h hn => absurd h hn
  rintro id (rfl | hid) hn
  · refine ⟨⟨vars, outer⟩, Array.getElem?_push_size, ?_, fun o hso => ?_⟩
    · exact fun x v hx => (hv x v hx).mono hG g.wider
    · obtain ⟨s, hs, _⟩ := hh.scopes o (ho o hso)
      exact ⟨.inr (ho o hso), (Array.getElem?_eq_some_iff.mp hs).1⟩
  · exact absurd hid hn

theorem Sound.newCell (hh : h.Sound G) {content : Option Value} (hc : ∀ v ∈ content, v.Sound G h) :
    (h.newCell content).2.Sound (G.addCell h.cells.size) := by
  have g : h.Grows (fun _ => False) (h.newCell content).2 := (Grows.refl _ h).newCell _
  have hG := G.within_addCell h.cells.size
  refine (hh.grows g nofun).within hG (fun _ h hn => absurd h hn) (fun _ h hn => absurd h hn) ?_
  rintro id (rfl | hid) hn
  · exact ⟨content, Array.getElem?_push_size, fun v hv => (hc v hv).mono hG g.wider⟩
  · exact absurd hid hn

theorem Sound.setThunk (hh : h.Sound G) (id : ThunkId) {state : ThunkState}
    (hv : ∀ v, state = .done v → v.Sound G h) : (h.setThunk id state).Sound G where
  scopes i hi := by
    obtain ⟨s, hs, hsound⟩ := hh.scopes i hi
    exact ⟨s, hs, hsound.mono (.refl G) (Heap.wider_of_eq rfl)⟩
  thunks i hi := by
    obtain ⟨t, ht, hsound⟩ := hh.thunks i hi
    by_cases he : id = i
    · subst he
      have hs : Thunk.Sound G h { t with state } := ⟨hsound.code, hv⟩
      exact ⟨_, by simp [Heap.setThunk, Array.getElem?_modify, ht],
        hs.mono (.refl G) (Heap.wider_of_eq rfl)⟩
    · exact ⟨t, by simp [Heap.setThunk, Array.getElem?_modify, he, ht],
        hsound.mono (.refl G) (Heap.wider_of_eq rfl)⟩
  cells i hi := by
    obtain ⟨c, hc, hcv⟩ := hh.cells i hi
    exact ⟨c, hc, fun v he => (hcv v he).mono (.refl G) (Heap.wider_of_eq rfl)⟩

theorem Sound.setCell (hh : h.Sound G) (id : CellId) {a : Value} (ha : G.cells id → a.Sound G h) :
    (h.setCell id a).Sound G where
  scopes i hi := by
    obtain ⟨s, hs, hsound⟩ := hh.scopes i hi
    exact ⟨s, hs, hsound.mono (.refl G) (Heap.wider_of_eq rfl)⟩
  thunks i hi := by
    obtain ⟨t, ht, hsound⟩ := hh.thunks i hi
    exact ⟨t, ht, hsound.mono (.refl G) (Heap.wider_of_eq rfl)⟩
  cells i hi := by
    obtain ⟨c, hc, hcv⟩ := hh.cells i hi
    by_cases he : id = i
    · subst he
      have hlt := (Array.getElem?_eq_some_iff.mp hc).1
      refine ⟨some a, by simp [Heap.setCell, hlt], fun v hv => ?_⟩
      cases hv
      exact (ha hi).mono (.refl G) (Heap.wider_of_eq rfl)
    · exact ⟨c, by simp [Heap.setCell, he, hc],
        fun v hv => (hcv v hv).mono (.refl G) (Heap.wider_of_eq rfl)⟩

theorem Sound.setVar (hh : h.Sound G) {id : ScopeId} (hn : ¬ G.scopes id) (name : String)
    (v : Value) : (h.setVar id name v).Sound G := by
  have hw := wider_setVar h id name v
  refine ⟨fun i hi => ?_, fun i hi => ?_, fun i hi => ?_⟩
  · obtain ⟨s, hs, hsound⟩ := hh.scopes i hi
    have hne : ¬ id = i := fun he => hn (he ▸ hi)
    exact ⟨s, by rw [scopes_setVar, if_neg hne, hs], hsound.mono (.refl G) hw⟩
  · obtain ⟨t, ht, hsound⟩ := hh.thunks i hi
    exact ⟨t, ht, hsound.mono (.refl G) hw⟩
  · obtain ⟨c, hc, hcv⟩ := hh.cells i hi
    exact ⟨c, hc, fun v he => (hcv v he).mono (.refl G) hw⟩

theorem wider_importFields (scope : ScopeId) (own : List String) (i : String)
    (fields : Table Value) : ∀ h : Heap, h.Wider (Loader.importFields scope own i fields h) := by
  induction fields with
  | nil => exact fun h => .refl h
  | cons p fields ih =>
    intro h
    refine .trans ?_ (ih _)
    simp only
    split
    · exact wider_setVar _ _ _ _
    · exact (wider_setVar _ _ _ _).trans (wider_setVar _ _ _ _)

theorem Sound.importFields {scope : ScopeId} (hn : ¬ G.scopes scope) (own : List String)
    (i : String) (fields : Table Value) :
    ∀ {h : Heap}, h.Sound G → (Loader.importFields scope own i fields h).Sound G := by
  induction fields with
  | nil => exact fun hh => hh
  | cons p fields ih =>
    intro h hh
    refine ih ?_
    simp only
    split
    · exact hh.setVar hn _ _
    · exact (hh.setVar hn _ _).setVar hn _ _

/-! ## Definitions -/

section
variable {scope o : ScopeId} {vars : Table Value} {defs : List Definition} {fields : Table Value}

theorem wider_of_defined (hd : Loader.Defined scope defs fields h h') : h.Wider h' := by
  refine wider_of_scopes fun id s hi => ?_
  by_cases he : id = scope
  · subst he
    obtain ⟨vars, hs, hvars⟩ := hd.scope s.vars s.outer hi
    refine ⟨vars, hs, fun x hx => ?_⟩
    rw [hvars, Option.isSome_or, hx, Bool.or_true]
  · exact ⟨s.vars, hd.fills.scopes id s (by simpa using he) hi, fun _ hx => hx⟩

theorem Sound.defined (hh : h.Sound G) (hd : Loader.Defined scope defs fields h h')
    (hn : ¬ G.scopes scope) : h'.Sound G := by
  have hw := wider_of_defined hd
  refine ⟨fun id hid => ?_, fun id hid => ?_, fun id hid => ?_⟩
  · obtain ⟨s, hi, hsound⟩ := hh.scopes id hid
    have hne : id ∉ [scope] := fun hm => hn (List.mem_singleton.mp hm ▸ hid)
    exact ⟨s, hd.fills.scopes id s hne hi, hsound.mono (.refl G) hw⟩
  · obtain ⟨t, ht, hsound⟩ := hh.thunks id hid
    exact ⟨t, hd.thunks id t ht, hsound.mono (.refl G) hw⟩
  · obtain ⟨c, hc, hcv⟩ := hh.cells id hid
    exact ⟨c, by rw [hd.cells, hc], fun v he => (hcv v he).mono (.refl G) hw⟩

/-- The scope of the definitions knows their names, what it knew before, and what is known around
it. -/
theorem knows_defined (hd : Loader.Defined scope defs fields h h')
    (hs : h.scopes[scope]? = some ⟨vars, some o⟩) (ho : o < scope) {x : String}
    (hx : x ∈ defs.map (·.binding.name) ∨ (vars.get? x).isSome ∨ h.Knows o x) :
    h'.Knows scope x := by
  obtain ⟨vars', hs', hvars⟩ := hd.scope _ _ hs
  rw [knows_iff hs' ho, hvars, Option.isSome_or, Bool.or_eq_true, or_assoc]
  refine hx.imp (fun hx => ?_) (Or.imp_right (wider_of_defined hd o x))
  rw [Table.get?_isSome, hd.names]
  exact hx

/-- What the definitions have made leads only to their scope and to themselves. -/
theorem sound_fields (hd : Loader.Defined scope defs fields h h')
    (hbody : ∀ d ∈ defs, d.binding.body.Scoped fun x =>
      Param.Binds d.binding.params x ∨ h'.Knows scope x) :
    ∀ p ∈ fields, p.2.Sound ((G.addScope scope).addThunks fields) h' := by
  rintro ⟨x, v⟩ hp
  obtain ⟨d, hdm, _, hm⟩ := hd.made _ hp
  have hb := hbody d hdm
  unfold Definition.Made at hm
  split at hm
  · rename_i p ps hps
    obtain rfl := hm
    rw [hps] at hb
    exact .closure ⟨.inl rfl, hb⟩
  · obtain ⟨id, state, rfl, _⟩ := hm
    exact .thunk (.inl ⟨x, hp⟩)

theorem sound_thunks (hd : Loader.Defined scope defs fields h h')
    (hbody : ∀ d ∈ defs, d.binding.body.Scoped fun x =>
      Param.Binds d.binding.params x ∨ h'.Knows scope x) {x : String} {id : ThunkId}
    (hx : (x, .thunk id) ∈ fields) :
    ∃ t, h'.thunks[id]? = some t ∧ t.Sound ((G.addScope scope).addThunks fields) h' := by
  obtain ⟨d, hdm, _, hm⟩ := hd.made _ hx
  have hb := hbody d hdm
  unfold Definition.Made at hm
  split at hm
  · cases hm
  · rename_i hps
    obtain ⟨id', state, he, ht⟩ := hm
    cases he
    refine ⟨_, ht, fun e sc he => ?_, fun v hv => ?_⟩
    · cases he
      rw [hps] at hb
      exact ⟨.inl rfl, hb.mono fun x hx => hx.resolve_left nofun⟩
    · rw [hd.pending _ hx id _ rfl ht] at hv
      cases hv

/-- A scope comes into the ground together with the definitions made in it. -/
theorem Sound.define (hh : h.Sound G) (hd : Loader.Defined scope defs fields h h')
    (hs : h.scopes[scope]? = some ⟨vars, some o⟩) (hn : ¬ G.scopes scope)
    (ho : G.scopes o ∧ o < scope) (hv : ∀ x v, vars.get? x = some v → v.Sound G h)
    (hdefs : ∀ d ∈ defs, d.binding.body.Scoped fun x =>
      Param.Binds d.binding.params x ∨ x ∈ defs.map (·.binding.name) ∨ (vars.get? x).isSome ∨
        h.Knows o x) :
    h'.Sound ((G.addScope scope).addThunks fields) ∧
      ∀ p ∈ fields, p.2.Sound ((G.addScope scope).addThunks fields) h' := by
  have hG : G.Within ((G.addScope scope).addThunks fields) :=
    (G.within_addScope scope).trans (Ground.within_addThunks _ fields)
  have hbody : ∀ d ∈ defs, d.binding.body.Scoped fun x =>
      Param.Binds d.binding.params x ∨ h'.Knows scope x :=
    fun d hdm => (hdefs d hdm).mono fun x => Or.imp_right (knows_defined hd hs ho.2)
  have hfields := fun p hp => sound_fields (G := G) hd hbody p hp
  obtain ⟨vars', hs', hvars⟩ := hd.scope _ _ hs
  refine ⟨(hh.defined hd hn).within hG ?_ ?_ fun _ h hn => absurd h hn, hfields⟩
  · rintro id (rfl | hid) hold
    · refine ⟨_, hs', fun x v hx => ?_, fun o' he => ?_⟩
      · rw [hvars] at hx
        cases hf : fields.get? x with
        | some a =>
          rw [hf, Option.some_or] at hx
          cases hx
          exact hfields _ (Table.mem_of_get? hf)
        | none =>
          rw [hf, Option.none_or] at hx
          exact (hv x v hx).mono hG (wider_of_defined hd)
      · cases he
        exact ⟨.inr ho.1, ho.2⟩
    · exact absurd hid hold
  · rintro id (⟨x, hx⟩ | hid) hold
    · exact sound_thunks hd hbody hx
    · exact absurd hid hold

end

end Heap

end

end LazySession
