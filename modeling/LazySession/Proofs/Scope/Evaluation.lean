import LazySession.Proofs.Scope.Application

/-!
# Evaluation on sound ground

`Machine.sound_run`: an evaluation that starts on sound ground stays there. It never meets a name
that is not defined, and the ground is sound afterwards. An evaluation that starts anywhere else may
fail in any way, but as it goes into the thunks of the ground only by evaluating their code, it
leaves the ground sound too.
-/

namespace LazySession

/-- What demanding a value comes to. -/
theorem EvalState.demand_cases (s : EvalState) (v : Value) :
    (∃ id t e scope, v = .thunk id ∧ s.heap.thunks[id]? = some t ∧ t.state = .pending ∧
      t.code = some (e, scope) ∧ s.demand v = .code id t e scope) ∨
    s.demand v = .now (.ok v) ∨
    (∃ id u, v = .thunk id ∧ s.heap.thunkValue? id = some u ∧ s.demand v = .now (.ok u)) ∨
    ∃ e name, s.demand v = .now (.error e) ∧ e.fault = .loop name := by
  cases v with
  | thunk id =>
    cases ht : s.heap.thunks[id]? with
    | none => exact .inr (.inl (by simp [demand, ht]))
    | some t =>
      obtain ⟨name, code, source, want, state⟩ := t
      cases state with
      | done u => exact .inr (.inr (.inl ⟨id, u, rfl, by simp [Heap.thunkValue?, ht],
          by simp [demand, ht]⟩))
      | pending =>
        cases code with
        | none => exact .inr (.inr (.inr ⟨_, name, by simp [demand, ht]; rfl, rfl⟩))
        | some c => exact .inl ⟨id, _, c.1, c.2, rfl, ht, rfl, rfl, by simp [demand, ht]⟩
      | forcing =>
        cases code with
        | none => exact .inr (.inr (.inr ⟨_, name, by simp [demand, ht]; rfl, rfl⟩))
        | some c => exact .inr (.inr (.inr ⟨_, name, by simp [demand, ht]; rfl, rfl⟩))
  | _ => exact .inr (.inl rfl)

theorem EvalState.demand_code {s : EvalState} {v : Value} {id : ThunkId} {t : Thunk} {e : Expr}
    {scope : ScopeId} (hd : s.demand v = .code id t e scope) :
    v = .thunk id ∧ s.heap.thunks[id]? = some t ∧ t.code = some (e, scope) := by
  have hcases := s.demand_cases v
  simp only [hd, Demand.code.injEq, reduceCtorEq, false_and, and_false, exists_false, or_false]
    at hcases
  obtain ⟨_, _, _, _, hv, ht, _, hc, rfl, rfl, rfl, rfl⟩ := hcases
  exact ⟨hv, ht, hc⟩

/-! ## Configurations -/

/-- What is to be done next leads only to the ground. -/
def Control.Sound (G : Ground) (h : Heap) : Control → Prop
  | .eval _ e scope => G.scopes scope ∧ e.Scoped (h.Knows scope)
  | .apply _ _ fn args => fn.Sound G h ∧ ∀ a ∈ args, a.Sound G h
  | .give (.ok v) => v.Sound G h
  | .give (.error e) => e.fault.isUndefined = false

namespace Frame

/-- The frame, which is not one of a thunk, leads only to the ground. -/
def Sound (G : Ground) (h : Heap) : Frame → Prop
  | .function _ _ args scope => G.scopes scope ∧ ∀ a ∈ args, a.Scoped (h.Knows scope)
  | .argument _ _ fn before after scope => G.scopes scope ∧ fn.Sound G h ∧
    (∀ v ∈ before, v.Sound G h) ∧ ∀ a ∈ after, a.Scoped (h.Knows scope)
  | .left _ _ _ r scope => G.scopes scope ∧ r.Scoped (h.Knows scope)
  | .right _ _ _ l => l.Sound G h
  | .negate _ => True
  | .test _ _ yes no scope =>
    G.scopes scope ∧ yes.Scoped (h.Knows scope) ∧ no.Scoped (h.Knows scope)
  | .thunk .. => False
  | .body _ _ _ others => ∀ v ∈ others, v.Sound G h

/-- Frames that wait for a sound value (`true`) or for any (`false`). The frame of a thunk of the
ground waits for a sound value, whatever is below it. `base` tells what the whole evaluation is to
give. -/
inductive Waits (G : Ground) (h : Heap) (base : Bool) : Bool → List Frame → Prop
  | nil : Waits G h base base []
  | frame {f : Frame} {fs : List Frame} (hf : f.Sound G h) (hfs : Waits G h base true fs) :
    Waits G h base true (f :: fs)
  | thunk {id : ThunkId} {t : Thunk} {pos : Pos} {place : Place} {fs : List Frame} {m : Bool}
    (hid : G.thunks id) (hfs : Waits G h base m fs) :
    Waits G h base true (.thunk id t pos place :: fs)
  | other {f : Frame} {fs : List Frame}
    (hf : ∀ id, f.thunk? = some id → ¬ G.thunks id ∧ id < h.thunks.size)
    (hfs : Waits G h base false fs) : Waits G h base false (f :: fs)

variable {G G' : Ground} {h h' : Heap} {base m : Bool} {fs : List Frame}

theorem Sound.mono {f : Frame} (hf : f.Sound G h) (hG : G.Within G') (hw : h.Wider h') :
    f.Sound G' h' := by
  cases f with
  | function depth pos args scope =>
    exact ⟨hG.scopes _ hf.1, fun a hm => (hf.2 a hm).mono (hw scope)⟩
  | argument depth pos fn before after scope =>
    obtain ⟨hs, hfn, hb, ha⟩ := hf
    exact ⟨hG.scopes _ hs, hfn.mono hG hw, fun v hm => (hb v hm).mono hG hw,
      fun a hm => (ha a hm).mono (hw scope)⟩
  | left depth pos op right scope => exact ⟨hG.scopes _ hf.1, hf.2.mono (hw scope)⟩
  | right depth pos op left => exact Value.Sound.mono hf hG hw
  | negate pos => trivial
  | test depth pos yes no scope =>
    exact ⟨hG.scopes _ hf.1, hf.2.1.mono (hw scope), hf.2.2.mono (hw scope)⟩
  | thunk id t pos place => exact hf
  | body depth pos place others => exact fun v hm => (hf v hm).mono hG hw

theorem Waits.mono (hfs : Waits G h base m fs) (e : G.Extends h G') (hw : h.Wider h')
    (ht : h.thunks.size ≤ h'.thunks.size) : Waits G' h' base m fs := by
  induction hfs with
  | nil => exact .nil
  | frame hf _ ih => exact .frame (hf.mono e.within hw) ih
  | thunk hid _ ih => exact .thunk (e.within.thunks _ hid) ih
  | other hf _ ih =>
    refine .other (fun id hid => ?_) ih
    obtain ⟨hn, hlt⟩ := hf id hid
    refine ⟨fun hG => ?_, Nat.lt_of_lt_of_le hlt ht⟩
    exact (e.thunks id hG).elim hn fun hle => Nat.not_le_of_lt hlt hle

theorem Waits.base_eq (hfs : Waits G h base m fs) (hm : m = false) : base = false := by
  induction hfs with
  | nil => exact hm
  | frame | thunk => cases hm
  | other _ _ ih => exact ih rfl

theorem Waits.thunks (hfs : Waits G h base m fs) (hm : m = false) :
    ∀ id ∈ fs.filterMap thunk?, ¬ G.thunks id ∧ id < h.thunks.size := by
  induction hfs with
  | nil => exact nofun
  | frame | thunk => cases hm
  | other hf _ ih =>
    intro id hid
    obtain ⟨f', hf', hid'⟩ := List.mem_filterMap.mp hid
    rcases List.mem_cons.mp hf' with rfl | hf'
    · exact hf id hid'
    · exact ih rfl id (List.mem_filterMap.mpr ⟨f', hf', hid'⟩)

theorem waits_of_thunks
    (hid : ∀ id ∈ fs.filterMap thunk?, ¬ G.thunks id ∧ id < h.thunks.size) :
    Waits G h false false fs := by
  induction fs with
  | nil => exact .nil
  | cons f fs ih =>
    refine .other (fun id hf => ?_) (ih fun id hf => ?_)
    · exact hid id (List.mem_filterMap.mpr ⟨f, List.mem_cons_self, hf⟩)
    · obtain ⟨f', hf', hf⟩ := List.mem_filterMap.mp hf
      exact hid id (List.mem_filterMap.mpr ⟨f', List.mem_cons_of_mem _ hf', hf⟩)

end Frame

namespace Machine

/-- The ground is sound, and where a sound value is waited for, only the ground is used. -/
structure Sound (base : Bool) (G : Ground) (c : Machine) : Prop where
  heap : c.state.heap.Sound G
  waits : ∃ m, Frame.Waits G c.state.heap base m c.frames ∧
    (m = true → c.control.Sound G c.state.heap)

section
variable {G : Ground} {base m : Bool} {frames : List Frame} {s : EvalState}

/-! ## Steps on sound ground -/

theorem sound_mk {control : Control} (hh : s.heap.Sound G) (hw : Frame.Waits G s.heap base m frames)
    (hc : control.Sound G s.heap) : Sound base G ⟨control, frames, s⟩ :=
  ⟨hh, m, hw, fun _ => hc⟩

theorem wider_setThunk (h : Heap) (id : ThunkId) (state : ThunkState) :
    h.Wider (h.setThunk id state) :=
  Heap.wider_of_eq rfl

theorem waits_setThunk (hw : Frame.Waits G s.heap base m frames) (id : ThunkId)
    (state : ThunkState) : Frame.Waits G (s.heap.setThunk id state) base m frames :=
  hw.mono (.refl _ _) (wider_setThunk _ _ _) (by simp [Heap.setThunk])

/-- A thunk of the ground is gone into from anywhere. -/
theorem sound_startThunk (hh : s.heap.Sound G) (hw : Frame.Waits G s.heap base m frames)
    {id : ThunkId} {t : Thunk} {e : Expr} {scope : ScopeId} (hid : G.thunks id)
    (ht : s.heap.thunks[id]? = some t) (hc : t.code = some (e, scope)) (depth : Nat) (pos : Pos)
    (place : Place) :
    Sound base G ⟨.eval depth e scope, .thunk id t pos place :: frames, s.startThunk id t⟩ := by
  obtain ⟨t', ht', hsound⟩ := hh.thunks id hid
  obtain rfl : t = t' := Option.some.inj (ht.symm.trans ht')
  obtain ⟨hscope, he⟩ := hsound.code e scope hc
  refine sound_mk (m := true) ?_ (.thunk hid (waits_setThunk hw _ _)) ⟨hscope, ?_⟩
  · exact hh.setThunk id nofun
  · exact he.mono (wider_setThunk _ _ _ scope)

theorem sound_demand (hh : s.heap.Sound G) (hw : Frame.Waits G s.heap base true frames) {v : Value}
    (hv : v.Sound G s.heap) (depth : Nat) : Sound base G (demand depth v frames s) := by
  unfold demand
  rcases s.demand_cases v with ⟨id, t, e, scope, rfl, ht, _, hc, hd⟩ | hd | ⟨id, u, rfl, hu, hd⟩ |
    ⟨e, name, hd, he⟩
  · rw [hd]
    cases hv with
    | alone ha => cases ha
    | thunk hid => exact sound_startThunk hh hw hid ht hc _ _ _
  · rw [hd]
    exact sound_mk hh hw hv
  · rw [hd]
    cases hv with
    | alone ha => cases ha
    | thunk hid => exact sound_mk hh hw (hh.thunkValue? hid hu)
  · rw [hd]
    refine sound_mk hh hw ?_
    simp [Control.Sound, he, RuntimeFault.isUndefined]

theorem sound_arguments (hh : s.heap.Sound G) (hw : Frame.Waits G s.heap base true frames)
    {fn : Value} {before : List Value} {after : List Expr} {scope : ScopeId}
    (hs : G.scopes scope) (hf : fn.Sound G s.heap) (hb : ∀ v ∈ before, v.Sound G s.heap)
    (ha : ∀ a ∈ after, a.Scoped (s.heap.Knows scope)) (depth : Nat) (pos : Pos) :
    Sound base G (arguments depth pos fn before after scope frames s) := by
  cases after with
  | nil => exact sound_mk hh hw ⟨hf, fun a hm => hb a (List.mem_reverse.mp hm)⟩
  | cons a as =>
    refine sound_mk (m := true) hh (.frame ⟨hs, hf, hb, fun a hm => ?_⟩ hw) ⟨hs, ?_⟩
    · exact ha a (List.mem_cons_of_mem _ hm)
    · exact ha a List.mem_cons_self

theorem sound_operate (hh : s.heap.Sound G) (hw : Frame.Waits G s.heap base true frames)
    {l r : Value} (hl : l.Sound G s.heap) (hr : r.Sound G s.heap) (depth : Nat) (pos : Pos)
    (op : Operator) : Sound base G (operate depth pos op l r frames s) := by
  unfold operate
  split
  · refine sound_mk hh hw ⟨hl, fun a hm => ?_⟩
    rw [List.mem_singleton.mp hm]
    exact hr
  · split
    · rename_i v hv
      exact sound_mk hh hw (.alone (Value.isAlone_of_isPlain (Operator.isPlain_eval hv)))
    · rename_i f hf
      exact sound_mk hh hw (RuntimeFault.isUndefined_of_isPrimitive (Operator.fault_eval hf))

theorem sound_finishThunk (hh : s.heap.Sound G) (hw : Frame.Waits G s.heap base m frames)
    {r : Except RuntimeError Value} (hr : (Control.give r).Sound G s.heap) (id : ThunkId) (t : Thunk)
    (pos : Pos) (place : Place) :
    Sound base G ⟨.give (s.finishThunk id t pos place r).1, frames,
      (s.finishThunk id t pos place r).2⟩ := by
  cases r with
  | error e => exact sound_mk (hh.setThunk id nofun) (waits_setThunk hw _ _) hr
  | ok v =>
    have hv : Value.Sound G s.heap v := hr
    have hdone : (s.heap.setThunk id (.done v)).Sound G :=
      hh.setThunk id fun u hu => by cases hu; exact hv
    have hv' := hv.mono (.refl G) (wider_setThunk s.heap id (.done v))
    simp only [EvalState.finishThunk]
    split
    · exact sound_mk hdone (waits_setThunk hw _ _) hv'
    · split
      · exact sound_mk hdone (waits_setThunk hw _ _) hv'
      · exact sound_mk (hh.setThunk id nofun) (waits_setThunk hw _ _) rfl

theorem sound_resume {f : Frame} (hh : s.heap.Sound G)
    (hw : Frame.Waits G s.heap base true (f :: frames)) {v : Value} (hv : v.Sound G s.heap) :
    Sound base G (resume f v frames s) := by
  cases hw with
  | @thunk id t pos place _ _ hid hw =>
    exact sound_finishThunk (r := .ok v) hh hw hv id t pos place
  | frame hf hw =>
    cases f with
    | function depth pos args scope => exact sound_arguments hh hw hf.1 hv (by simp) hf.2 _ _
    | argument depth pos fn before after scope =>
      obtain ⟨hs, hfn, hb, ha⟩ := hf
      refine sound_arguments hh hw hs hfn (fun u hm => ?_) ha _ _
      rcases List.mem_cons.mp hm with rfl | hm
      · exact hv
      · exact hb u hm
    | left depth pos op right scope =>
      have hright : Sound base G ⟨.eval depth right scope, .right depth pos op v :: frames, s⟩ :=
        sound_mk (m := true) hh (.frame hv hw) hf
      simp only [resume]
      split
      · split
        · rename_i he
          exact sound_mk hh hw (RuntimeFault.isUndefined_of_isPrimitive (Operator.fault_shortcut he))
        · exact sound_mk hh hw (.alone rfl)
        · exact hright
      · exact hright
    | right depth pos op left => exact sound_operate hh hw hf hv _ _ _
    | negate pos =>
      simp only [resume]
      split
      · exact sound_mk hh hw (.alone rfl)
      · exact sound_mk hh hw rfl
    | test depth pos yes no scope =>
      obtain ⟨hs, hy, hn⟩ := hf
      simp only [resume]
      split
      · rename_i b _
        cases b with
        | true => exact sound_mk hh hw ⟨hs, hy⟩
        | false => exact sound_mk hh hw ⟨hs, hn⟩
      · exact sound_mk hh hw rfl
    | thunk id t pos place => cases hf
    | body depth pos place others =>
      cases others with
      | nil => exact sound_mk hh hw hv
      | cons a as => exact sound_mk hh hw ⟨hv, hf⟩

theorem sound_unwind {f : Frame} (hh : s.heap.Sound G)
    (hw : Frame.Waits G s.heap base true (f :: frames)) {e : RuntimeError}
    (he : e.fault.isUndefined = false) : Sound base G (unwind f e frames s) := by
  cases hw with
  | @thunk id t pos place _ _ hid hw =>
    exact sound_finishThunk (r := .error e) hh hw he id t pos place
  | frame hf hw =>
    cases f with
    | thunk id t pos place => cases hf
    | body depth pos place others => exact sound_mk hh hw he
    | _ => exact sound_mk hh hw he

/-- A block comes into the ground, and its scope knows its names and those around it. -/
theorem sound_newBindings {h : Heap} {scope : ScopeId} {binds : List Binding} (hh : h.Sound G)
    (hs : G.scopes scope) (hbs : ∀ b ∈ binds, b.body.Scoped
      fun x => Param.Binds b.params x ∨ x ∈ binds.map (·.name) ∨ h.Knows scope x)
    (source : String) :
    ∃ G', G.Extends h G' ∧
      ((h.newScope [] (some scope)).2.newBindings binds h.scopes.size source).Sound G' ∧
      G'.scopes h.scopes.size ∧ ∀ x, x ∈ binds.map (·.name) ∨ h.Knows scope x →
        ((h.newScope [] (some scope)).2.newBindings binds h.scopes.size source).Knows
          h.scopes.size x := by
  have g : h.Grows (fun _ => False) (h.newScope [] (some scope)).2 :=
    (Heap.Grows.refl _ h).newScope _ _
  have hnew : (h.newScope [] (some scope)).2.scopes[h.scopes.size]? = some ⟨[], some scope⟩ :=
    Array.getElem?_push_size
  obtain ⟨_, hsc, _⟩ := hh.scopes scope hs
  have hlt := (Array.getElem?_eq_some_iff.mp hsc).1
  have hn : ¬ G.scopes h.scopes.size := by
    intro hG
    obtain ⟨_, hi, _⟩ := hh.scopes _ hG
    exact Nat.lt_irrefl _ (Array.getElem?_eq_some_iff.mp hi).1
  rw [Loader.newBindings_eq]
  have hd := Loader.defined_defineAll h.scopes.size (binds.map fun b => ⟨b, source, none⟩)
    (h.newScope [] (some scope)).2
  have hnames : (binds.map fun b => (⟨b, source, none⟩ : Definition)).map (·.binding.name) =
      binds.map (·.name) := by
    simp
  generalize Loader.defineAll h.scopes.size _ _ = p at hd ⊢
  obtain ⟨fields, h'⟩ := p
  simp only at hd ⊢
  obtain ⟨hh', _⟩ := (hh.grows g nofun).define hd hnew hn ⟨hs, hlt⟩ nofun <| by
    intro d hdm
    obtain ⟨b, hb, rfl⟩ := List.mem_map.mp hdm
    rw [hnames]
    exact (hbs b hb).mono fun x => Or.imp_right (Or.imp_right fun hx => .inr (g.wider scope x hx))
  refine ⟨_, ⟨?_, ?_, ?_⟩, hh', .inl rfl, fun x hx => ?_⟩
  · exact (G.within_addScope _).trans (Ground.within_addThunks _ _)
  · exact fun id hid => hid.elim (fun he => .inr (Nat.le_of_eq he.symm)) .inl
  · rintro id (⟨x, hx⟩ | hid)
    · exact .inr (hd.fresh _ hx id rfl)
    · exact .inl hid
  · refine Heap.knows_defined hd hnew hlt (hx.imp (fun hx => ?_) fun hx => .inr (g.wider scope x hx))
    rw [hnames]
    exact hx

theorem sound_node (hh : s.heap.Sound G) (hw : Frame.Waits G s.heap base true frames) {e : Expr}
    {scope : ScopeId} (hs : G.scopes scope) (he : e.Scoped (s.heap.Knows scope)) (depth : Nat) :
    ∃ G', G.Extends s.heap G' ∧ Sound base G' (node depth e scope frames s) := by
  have same : ∀ {c : Machine}, Sound base G c → ∃ G', G.Extends s.heap G' ∧ Sound base G' c :=
    fun hc => ⟨G, .refl _ _, hc⟩
  cases he with
  | var hx | qualified hx =>
    obtain ⟨v, hv⟩ := Option.isSome_iff_exists.mp hx
    simp only [node, hv]
    exact same (sound_demand hh hw (hh.lookup scope hs hv) depth)
  | int | str | bool | unit => exact same (sound_mk hh hw (.alone rfl))
  | app hf ha => exact same (sound_mk (m := true) hh (.frame ⟨hs, ha⟩ hw) ⟨hs, hf⟩)
  | binary hl hr => exact same (sound_mk (m := true) hh (.frame ⟨hs, hr⟩ hw) ⟨hs, hl⟩)
  | negate hx => exact same (sound_mk (m := true) hh (.frame trivial hw) ⟨hs, hx⟩)
  | cond ht hy hn => exact same (sound_mk (m := true) hh (.frame ⟨hs, hy, hn⟩ hw) ⟨hs, ht⟩)
  | lambda hb => exact same (sound_mk hh hw (.closure ⟨hs, hb⟩))
  | @operator _ p op =>
    have g : s.heap.Grows (fun _ => False) (s.heap.newScope [] none).2 :=
      (Heap.Grows.refl _ _).newScope _ _
    have hG := Ground.extends_addScope s.heap G
    have hh' : (s.heap.newScope [] none).2.Sound (G.addScope s.heap.scopes.size) :=
      hh.newScope (by simp [Table.get?]) (by simp)
    refine ⟨_, hG, sound_mk hh' (hw.mono hG g.wider (Nat.le_refl _)) (.closure ⟨.inl rfl, ?_⟩)⟩
    exact .binary (.var (.inl (by simp [Param.Binds, Closure.ofOperator, Closure.params])))
      (.var (.inl (by simp [Param.Binds, Closure.ofOperator, Closure.params])))
  | @letIn _ p binds body hbs hb =>
    obtain ⟨G', hG, hh', hsc, hk⟩ := sound_newBindings hh hs hbs s.place.source
    have g : s.heap.Grows (fun _ => False) ((s.heap.newScope [] (some scope)).2.newBindings binds
        s.heap.scopes.size s.place.source) :=
      ((Heap.Grows.refl _ _).newScope _ _).newBindings (Nat.le_refl _) _ _
    exact ⟨G', hG, sound_mk hh' (hw.mono hG g.wider g.thunks_size) ⟨hsc, hb.mono hk⟩⟩

theorem heap_tick (s : EvalState) : s.tick.2.heap = s.heap := by
  unfold EvalState.tick
  simp only
  split <;> rfl

theorem sound_evaluate (hh : s.heap.Sound G) (hw : Frame.Waits G s.heap base true frames) {e : Expr}
    {scope : ScopeId} (hs : G.scopes scope) (he : e.Scoped (s.heap.Knows scope)) (set : Setting)
    (depth : Nat) :
    ∃ G', G.Extends s.heap G' ∧ Sound base G' (evaluate set depth e scope frames s) := by
  cases depth with
  | zero => exact ⟨G, .refl _ _, sound_mk hh hw rfl⟩
  | succ depth =>
    have ht := heap_tick s
    simp only [evaluate]
    generalize s.tick = p at ht ⊢
    obtain ⟨stop, s'⟩ := p
    simp only at ht ⊢
    rw [← ht] at hh hw he ⊢
    split
    · exact ⟨G, .refl _ _, sound_mk hh hw rfl⟩
    · exact sound_node hh hw hs he depth

theorem sound_applied {a : Applied} (hh : s.heap.Sound G)
    (hw : Frame.Waits G s.heap base true frames) (ha : a.Sound G s.heap) (depth : Nat) (pos : Pos) :
    Sound base G (applied depth pos a frames s) := by
  cases a with
  | done r => cases r <;> exact sound_mk hh hw ha
  | enter c scope others =>
    obtain ⟨hs, hb, ho⟩ := ha
    exact sound_mk (m := true) hh (.frame ho hw) ⟨hs, hb⟩
  | again fn others => exact sound_mk hh hw ha

/-! ## Steps from elsewhere -/

/-- The machine has no frames of thunks but those in `frames`. -/
def HeldIn (frames : List Frame) (c : Machine) : Prop :=
  ∀ id ∈ c.held, id ∈ frames.filterMap Frame.thunk?

theorem heldIn_same (control : Control) (frames : List Frame) (s : EvalState) :
    HeldIn frames ⟨control, frames, s⟩ :=
  fun _ hid => hid

theorem heldIn_push {f : Frame} (hf : f.thunk? = none) (control : Control) (frames : List Frame)
    (s : EvalState) : HeldIn frames ⟨control, f :: frames, s⟩ := by
  intro id hid
  rwa [held, List.filterMap_cons_none hf] at hid

theorem HeldIn.cons {c : Machine} (hc : HeldIn frames c) (f : Frame) : HeldIn (f :: frames) c := by
  intro id hid
  obtain ⟨f', hf', hid'⟩ := List.mem_filterMap.mp (hc id hid)
  exact List.mem_filterMap.mpr ⟨f', List.mem_cons_of_mem _ hf', hid'⟩

theorem heldIn_node {depth : Nat} {e : Expr} {scope : ScopeId} (frames : List Frame)
    (s : EvalState) :
    (∃ v, node depth e scope frames s = demand depth v frames s) ∨
      HeldIn frames (node depth e scope frames s) := by
  cases e with
  | var p name | qualified p mod name =>
    simp only [node]
    split
    · exact .inl ⟨_, rfl⟩
    · exact .inr (heldIn_same _ _ _)
  | app fn args | binary p op l r | negate p x | cond p test yes no =>
    exact .inr (heldIn_push rfl _ _ _)
  | _ => exact .inr (heldIn_same _ _ _)

theorem heldIn_resume (f : Frame) (v : Value) (frames : List Frame) (s : EvalState) :
    HeldIn frames (resume f v frames s) := by
  have harguments : ∀ depth pos fn before after scope,
      HeldIn frames (arguments depth pos fn before after scope frames s) := by
    intro depth pos fn before after scope
    cases after with
    | nil => exact heldIn_same _ _ _
    | cons a as => exact heldIn_push rfl _ _ _
  cases f with
  | function depth pos args scope => exact harguments _ _ _ _ _ _
  | argument depth pos fn before after scope => exact harguments _ _ _ _ _ _
  | left depth pos op right scope =>
    simp only [resume]
    split
    · split
      · exact heldIn_same _ _ _
      · exact heldIn_same _ _ _
      · exact heldIn_push rfl _ _ _
    · exact heldIn_push rfl _ _ _
  | right depth pos op left =>
    simp only [resume, operate]
    split
    · exact heldIn_same _ _ _
    · split <;> exact heldIn_same _ _ _
  | negate pos | test depth pos yes no scope =>
    simp only [resume]
    split <;> exact heldIn_same _ _ _
  | thunk id t pos place => exact heldIn_same _ _ _
  | body depth pos place others => cases others <;> exact heldIn_same _ _ _

theorem heldIn_next {set : Setting} {c c' : Machine} (hn : c.next set = .going c') :
    (∃ depth v s, s.heap = c.state.heap ∧ c' = demand depth v c.frames s) ∨
      HeldIn c.frames c' := by
  obtain ⟨control, frames, s⟩ := c
  cases control with
  | eval depth e scope =>
    cases hn
    cases depth with
    | zero => exact .inr (heldIn_same _ _ _)
    | succ depth =>
      simp only [evaluate]
      split
      · exact .inr (heldIn_same _ _ _)
      · rcases heldIn_node frames s.tick.2 with ⟨v, hv⟩ | hheld
        · exact .inl ⟨depth, v, s.tick.2, heap_tick s, hv⟩
        · exact .inr hheld
  | apply depth pos fn args =>
    rw [next_apply] at hn
    cases hn
    generalize Applied.round set.host pos fn args s = p
    obtain ⟨a, s'⟩ := p
    refine .inr ?_
    cases a with
    | done r => exact heldIn_same _ _ _
    | enter c scope others => exact heldIn_push rfl _ _ _
    | again fn others => exact heldIn_same _ _ _
  | give r =>
    cases frames with
    | nil => cases r <;> cases hn
    | cons f frames =>
      cases r with
      | ok v => cases hn; exact .inr ((heldIn_resume f v frames s).cons f)
      | error e =>
        cases hn
        refine .inr (HeldIn.cons ?_ f)
        cases f <;> exact heldIn_same _ _ _

/-- Nobody waits for a sound value; if the value is a thunk of the ground, it is sound all the
same. -/
theorem sound_demand_any (hh : s.heap.Sound G) (hw : Frame.Waits G s.heap false false frames)
    (depth : Nat) (v : Value) : Sound false G (demand depth v frames s) := by
  unfold demand
  split
  · exact ⟨hh, false, hw, by intro h; cases h⟩
  · rename_i id t e scope hd
    obtain ⟨rfl, ht, hc⟩ := EvalState.demand_code hd
    by_cases hid : G.thunks id
    · exact sound_startThunk hh hw hid ht hc _ _ _
    · have g : s.heap.Grows (fun id => ¬ G.thunks id) (s.heap.setThunk id .forcing) :=
        (Heap.Grows.refl _ _).setThunk hid _
      refine ⟨hh.grows g fun _ hn => hn, false, .other ?_ (waits_setThunk hw _ _),
        by intro h; cases h⟩
      rintro _ ⟨⟩
      exact ⟨hid, Nat.lt_of_lt_of_le (Array.getElem?_eq_some_iff.mp ht).1 g.thunks_size⟩

theorem sound_elsewhere {set : Setting} {c c' : Machine} (hh : c.state.heap.Sound G)
    (hw : Frame.Waits G c.state.heap false false c.frames) (hn : c.next set = .going c')
    (hin : HeldIn c.frames c') : Sound false G c' := by
  have hheld := hw.thunks rfl
  have g := grows_next (T := fun id => ¬ G.thunks id) (.refl _ _) hn
    (fun id hid => (hheld id hid).1) fun id hid => (hheld id (hin id hid)).1
  refine ⟨hh.grows g fun _ hid => hid, false, Frame.waits_of_thunks fun id hid => ?_,
    by intro h; cases h⟩
  obtain ⟨hG, hlt⟩ := hheld id (hin id hid)
  exact ⟨hG, Nat.lt_of_lt_of_le hlt g.thunks_size⟩

/-! ## Runs -/

theorem sound_next {set : Setting} (hlib : set.host.Relays) {c c' : Machine} (hc : Sound base G c)
    (hn : c.next set = .going c') : ∃ G', G.Extends c.state.heap G' ∧ Sound base G' c' := by
  obtain ⟨hh, m, hw, hcontrol⟩ := hc
  cases m with
  | false =>
    obtain rfl := hw.base_eq rfl
    refine ⟨G, .refl _ _, ?_⟩
    rcases heldIn_next hn with ⟨depth, v, s, hs, rfl⟩ | hin
    · rw [← hs] at hh hw
      exact sound_demand_any hh hw depth v
    · exact sound_elsewhere hh hw hn hin
  | true =>
    have hcontrol := hcontrol rfl
    obtain ⟨control, frames, s⟩ := c
    cases control with
    | eval depth e scope =>
      cases hn
      exact sound_evaluate hh hw hcontrol.1 hcontrol.2 set depth
    | apply depth pos fn args =>
      rw [next_apply] at hn
      cases hn
      obtain ⟨G', hG, hh', ha⟩ := Applied.sound_round pos hlib hh hcontrol.1 hcontrol.2
      have g := Applied.grows_round (.refl (fun _ => False) s.heap) set.host pos fn args
      exact ⟨G', hG, sound_applied hh' (hw.mono hG g.wider g.thunks_size) ha depth pos⟩
    | give r =>
      cases frames with
      | nil => cases r <;> cases hn
      | cons f frames =>
        refine ⟨G, .refl _ _, ?_⟩
        cases r with
        | ok v => cases hn; exact sound_resume hh hw hcontrol
        | error e => cases hn; exact sound_unwind hh hw hcontrol

theorem sound_run {set : Setting} (hlib : set.host.Relays) {c : Machine} (hc : Sound base G c) :
    ∃ G', G.Extends c.state.heap G' ∧ (run set c).2.heap.Sound G' ∧
      (base = true → (Control.give (run set c).1).Sound G' (run set c).2.heap) := by
  have step : ∀ c₁ c₂, (∃ G', G.Extends c.state.heap G' ∧ Sound base G' c₁ ∧
      c.state.heap.Grows Heap.anyThunk c₁.state.heap) → c₁.next set = .going c₂ →
      ∃ G', G.Extends c.state.heap G' ∧ Sound base G' c₂ ∧
        c.state.heap.Grows Heap.anyThunk c₂.state.heap := by
    rintro c₁ c₂ ⟨G₁, hG₁, hc₁, g⟩ hn
    obtain ⟨G₂, hG₂, hc₂⟩ := sound_next hlib hc₁ hn
    exact ⟨G₂, hG₁.trans hG₂ g.smaller, hc₂,
      grows_next g hn (fun _ _ => trivial) fun _ _ => trivial⟩
  obtain ⟨G', hG, ⟨hh, m, hw, hcontrol⟩, _⟩ := run_keeps step c ⟨G, .refl _ G, hc, .refl _ _⟩
  refine ⟨G', hG, hh, fun hb => hcontrol ?_⟩
  cases hw
  exact hb

end

end Machine

namespace EvalState

variable {G : Ground} {set : Setting}

theorem extends_demand {G' : Ground} {depth : Nat} {v : Value} {frames : List Frame} {s : EvalState}
    (hG : G.Extends (Machine.demand depth v frames s).state.heap G') : G.Extends s.heap G' := by
  have g : s.heap.Grows Heap.anyThunk _ :=
    Machine.grows_demand (.refl _ _) (fun _ _ => trivial : ∀ id ∈
      (Machine.demand depth v frames s).held, Heap.anyThunk id)
  exact (Ground.Extends.refl s.heap G).trans hG g.smaller

/-- Forcing a sound value gives a sound value or an error that is not about a name. -/
theorem sound_force (hlib : set.host.Relays) {s : EvalState} (hh : s.heap.Sound G) {v : Value}
    (hv : v.Sound G s.heap) :
    ∃ G', G.Extends s.heap G' ∧ (s.force set v).2.heap.Sound G' ∧
      (Control.give (s.force set v).1).Sound G' (s.force set v).2.heap := by
  obtain ⟨G', hG, hh', hr⟩ := Machine.sound_run hlib (Machine.sound_demand hh .nil hv set.limit)
  exact ⟨G', extends_demand hG, hh', hr rfl⟩

theorem sound_force_any (hlib : set.host.Relays) {s : EvalState} (hh : s.heap.Sound G) (v : Value) :
    ∃ G', G.Extends s.heap G' ∧ (s.force set v).2.heap.Sound G' := by
  obtain ⟨G', hG, hh', _⟩ := Machine.sound_run hlib (Machine.sound_demand_any hh .nil set.limit v)
  exact ⟨G', extends_demand hG, hh'⟩

end EvalState

end LazySession
