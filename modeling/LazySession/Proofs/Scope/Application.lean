import LazySession.Proofs.Scope.Ground

/-!
# Application on sound ground

`Applied.sound_round`: a sound value applied to sound values gives a sound value, or a body to
evaluate on sound ground, or fails, but not for a name.
-/

namespace LazySession

/-- What the functions of the host give back of the language they were given: they make no
functions, thunks or cells of their own. -/
def HostLibrary.Relays (lib : HostLibrary) : Prop :=
  ∀ name held args vs, lib.call name held args = .ok vs →
    ∀ v, .object v ∈ vs → .object v ∈ args ∨ v.isAlone

/-! ## Grounds that grow -/

/-- `h'` has at least as many scopes and thunks. -/
def Heap.Smaller (h h' : Heap) : Prop :=
  h.scopes.size ≤ h'.scopes.size ∧ h.thunks.size ≤ h'.thunks.size

theorem Heap.Grows.smaller {T : ThunkId → Prop} {h h' : Heap} (g : h.Grows T h') : h.Smaller h' :=
  ⟨g.scopes_size, g.thunks_size⟩

/-- All that comes in is new in the heap. -/
structure Ground.Extends (h : Heap) (G G' : Ground) : Prop where
  within : G.Within G'
  scopes : ∀ id, G'.scopes id → G.scopes id ∨ h.scopes.size ≤ id
  thunks : ∀ id, G'.thunks id → G.thunks id ∨ h.thunks.size ≤ id

namespace Ground

variable {h h' : Heap} {G G' G'' : Ground}

theorem Extends.refl (h : Heap) (G : Ground) : G.Extends h G :=
  ⟨.refl G, fun _ hi => .inl hi, fun _ hi => .inl hi⟩

theorem Extends.trans (e : G.Extends h G') (e' : G'.Extends h' G'') (hl : h.Smaller h') :
    G.Extends h G'' where
  within := e.within.trans e'.within
  scopes id hi := (e'.scopes id hi).elim (e.scopes id) fun hle => .inr (Nat.le_trans hl.1 hle)
  thunks id hi := (e'.thunks id hi).elim (e.thunks id) fun hle => .inr (Nat.le_trans hl.2 hle)

theorem extends_addScope (h : Heap) (G : Ground) : G.Extends h (G.addScope h.scopes.size) :=
  ⟨G.within_addScope _, fun _ hi => hi.elim (fun he => .inr (Nat.le_of_eq he.symm)) .inl,
    fun _ hi => .inl hi⟩

theorem extends_addCell (h : Heap) (G : Ground) (id : CellId) : G.Extends h (G.addCell id) :=
  ⟨G.within_addCell _, fun _ hi => .inl hi, fun _ hi => .inl hi⟩

end Ground

/-! ## Values -/

section
variable {G : Ground} {h : Heap}

theorem Heap.Sound.lookup (hh : h.Sound G) {x : String} {v : Value} (scope : ScopeId) :
    G.scopes scope → h.lookup scope x = some v → v.Sound G h := by
  induction scope using Nat.strongRecOn with
  | _ scope ih =>
    intro hs hl
    obtain ⟨⟨vars, outer⟩, hi, hsound⟩ := hh.scopes scope hs
    rw [Heap.lookup_eq hi] at hl
    cases hx : vars.get? x with
    | some a =>
      rw [hx, Option.some_or] at hl
      cases hl
      exact hsound.vars x _ hx
    | none =>
      rw [hx, Option.none_or] at hl
      obtain ⟨o, ho, hl⟩ := Option.bind_eq_some_iff.mp hl
      obtain ⟨hG, hlt⟩ := hsound.outer o ho
      rw [if_pos hlt] at hl
      exact ih o hlt hG hl

theorem Heap.Sound.thunkValue? (hh : h.Sound G) {id : ThunkId} {v : Value} (hid : G.thunks id)
    (hv : h.thunkValue? id = some v) : v.Sound G h := by
  obtain ⟨t, ht, hsound⟩ := hh.thunks id hid
  unfold Heap.thunkValue? at hv
  rw [ht] at hv
  split at hv
  · rename_i v' heq
    cases heq
    cases hv
    exact hsound.done _ rfl
  · cases hv

theorem HostValue.eq_of_ofValue {v u : Value} (h : HostValue.ofValue v = .object u) : v = u := by
  cases v <;> cases h <;> rfl

theorem Heap.Sound.toHost (hh : h.Sound G) {v u : Value} (hv : v.Sound G h)
    (hu : h.toHost v = .object u) : u.Sound G h := by
  have step : ∀ (n : Nat) (v : Value), v.Sound G h → h.toHostFrom n v = .object u →
      u.Sound G h := by
    intro n
    induction n with
    | zero =>
      intro v hv hu
      cases HostValue.eq_of_ofValue hu
      exact hv
    | succ n ih =>
      intro v hv hu
      cases hv with
      | thunk hid =>
        simp only [Heap.toHostFrom] at hu
        split at hu
        · rename_i v' hv'
          exact ih v' (hh.thunkValue? hid hv') hu
        · cases hu
          exact .thunk hid
      | alone ha =>
        have hu' : HostValue.ofValue v = .object u := by
          cases v <;> first | exact hu | cases ha
        cases HostValue.eq_of_ofValue hu'
        exact .alone ha
      | closure hc => cases hu; exact .closure hc
      | partialApp hf ha => cases hu; exact .partialApp hf ha
      | cell hid => cases hu; exact .cell hid
  exact step _ v hv hu

theorem Value.Sound.callable? {v : Value} (hv : v.Sound G h) {f : Callable} {before : List Value}
    (hc : v.callable? = some (f, before)) : f.Sound G h ∧ ∀ a ∈ before, a.Sound G h := by
  cases hv with
  | alone ha =>
    cases v with
    | builtin b => cases hc; exact ⟨trivial, nofun⟩
    | host d =>
      simp only [Value.callable?] at hc
      split at hc
      · cases hc; exact ⟨trivial, nofun⟩
      · cases hc
    | closure _ | partialApp _ _ => cases ha
    | _ => cases hc
  | closure hs => cases hc; exact ⟨hs, nofun⟩
  | partialApp hf ha =>
    simp only [Value.callable?] at hc
    split at hc
    · cases hc; exact ⟨hf, ha⟩
    · cases hc
  | cell hid => cases hc
  | thunk hid => cases hc

end

/-! ## Applications -/

namespace Closure

theorem bindParams_spec {ps : List Param} : ∀ {vs : List Value} {vars : Table Value},
    bindParams ps vs = .ok vars → ps.length ≤ vs.length →
    (∀ p ∈ vars, p.2 ∈ vs) ∧ ∀ x, Param.Binds ps x → x ∈ vars.names := by
  induction ps with
  | nil =>
    intro vs vars h _
    cases h
    exact ⟨nofun, nofun⟩
  | cons p ps ih =>
    intro vs vars h hlen
    cases vs with
    | nil => cases hlen
    | cons v vs =>
      have hlen' := Nat.le_of_succ_le_succ hlen
      cases p with
      | named y =>
        simp only [bindParams] at h
        generalize hb : bindParams ps vs = r at h
        cases r <;> cases h
        obtain ⟨hm, hn⟩ := ih hb hlen'
        refine ⟨fun p hp => ?_, fun x hx => ?_⟩
        · rcases List.mem_cons.mp hp with rfl | hp
          · exact List.mem_cons_self
          · exact List.mem_cons_of_mem _ (hm p hp)
        · rcases List.mem_cons.mp hx with hx | hx
          · cases hx
            exact List.mem_cons_self
          · exact List.mem_cons_of_mem _ (hn x hx)
      | unit =>
        simp only [bindParams] at h
        split at h
        · obtain ⟨hm, hn⟩ := ih h hlen'
          refine ⟨fun p hp => List.mem_cons_of_mem _ (hm p hp), fun x hx => hn x ?_⟩
          exact (List.mem_cons.mp hx).resolve_left nofun
        · cases h

end Closure

namespace Applied

/-- What is to be done next leads only to the ground. -/
def Sound (G : Ground) (h : Heap) : Applied → Prop
  | done (.ok v) => v.Sound G h
  | done (.error e) => e.fault.isUndefined = false
  | enter c scope others =>
    G.scopes scope ∧ c.body.Scoped (h.Knows scope) ∧ ∀ a ∈ others, a.Sound G h
  | again fn others => fn.Sound G h ∧ ∀ a ∈ others, a.Sound G h

variable {G : Ground} {lib : HostLibrary} {s : EvalState}

theorem sound_give {h : Heap} {v : Value} {others : List Value} (hv : v.Sound G h)
    (ho : ∀ a ∈ others, a.Sound G h) : (give v others).Sound G h := by
  cases others with
  | nil => exact hv
  | cons a as => exact ⟨hv, ho⟩

theorem sound_call (pos : Pos) (hlib : lib.Relays) (hh : s.heap.Sound G) {f : Callable}
    (hf : f.Sound G s.heap) {args others : List Value} (hlen : f.arity ≤ args.length)
    (ha : ∀ a ∈ args, a.Sound G s.heap) (ho : ∀ a ∈ others, a.Sound G s.heap) :
    ∃ G', G.Extends s.heap G' ∧ (call lib pos f args others s).2.heap.Sound G' ∧
      (call lib pos f args others s).1.Sound G' (call lib pos f args others s).2.heap := by
  have same : ∀ {a : Applied}, a.Sound G s.heap →
      ∃ G', G.Extends s.heap G' ∧ s.heap.Sound G' ∧ a.Sound G' s.heap :=
    fun h => ⟨G, .refl _ _, hh, h⟩
  cases f with
  | closure c =>
    simp only [call]
    split
    · exact same rfl
    · rename_i vars hb
      obtain ⟨hm, hn⟩ := Closure.bindParams_spec hb hlen
      have hvars : ∀ x v, Table.get? vars.reverse x = some v → v.Sound G s.heap := by
        intro x v hx
        exact ha v (hm (x, v) (List.mem_reverse.mp (Table.mem_of_get? hx)))
      have hscope : ∀ o, some c.scope = some o → G.scopes o := by
        rintro o ⟨⟩
        exact hf.scope
      have g : s.heap.Grows (fun _ => False) (s.heap.newScope vars.reverse (some c.scope)).2 :=
        (Heap.Grows.refl _ _).newScope _ _
      refine ⟨_, Ground.extends_addScope _ _, hh.newScope hvars hscope, .inl rfl, ?_, ?_⟩
      · -- the new scope knows the parameters and what the closure knows
        obtain ⟨sc, hs, _⟩ := hh.scopes _ hf.scope
        have hlt := (Array.getElem?_eq_some_iff.mp hs).1
        refine hf.body.mono fun x hx => ?_
        refine (Heap.knows_iff Array.getElem?_push_size hlt x).mpr (hx.imp (fun hx => ?_) (g.wider _ x))
        rw [Table.get?_isSome, Table.names, List.map_reverse, List.mem_reverse]
        exact hn x hx
      · exact fun a hm => (ho a hm).mono (G.within_addScope _) g.wider
  | builtin b =>
    simp only [call]
    split
    · rename_i hf
      exact same (RuntimeFault.isUndefined_of_isPrimitive (Builtin.fault_call hf))
    · rename_i v h' hb
      -- a builtin makes a cell, reads one, or gives a plain value
      rcases Builtin.call_cases hb with ⟨a, _, rfl, rfl, rfl⟩ | ⟨id, _, rfl, hget, rfl⟩ | ⟨hp, rfl⟩
      · have hs : a.Sound G s.heap := ha a List.mem_cons_self
        have g : s.heap.Grows (fun _ => False) (s.heap.newCell (some a)).2 :=
          (Heap.Grows.refl _ _).newCell _
        refine ⟨_, Ground.extends_addCell _ _ _, hh.newCell fun _ ha => Option.some.inj ha ▸ hs, sound_give (.cell (.inl rfl)) ?_⟩
        exact fun a hm => (ho a hm).mono (G.within_addCell _) g.wider
      · refine same (sound_give ?_ ho)
        cases ha _ List.mem_cons_self with
        | alone hal => cases hal
        | cell hid =>
          obtain ⟨c, hc, hcv⟩ := hh.cells id hid
          rw [Heap.getCell?, hc] at hget
          exact hcv v hget
      · exact same (sound_give (.alone (Value.isAlone_of_isPlain hp)) ho)
  | host d =>
    simp only [call]
    split
    · rename_i hc
      exact same (RuntimeFault.isUndefined_of_isPrimitive (HostData.fault_call hc))
    · rename_i v hc
      refine same (sound_give ?_ ho)
      rcases HostData.call_cases hc with rfl | ⟨ps, name, held, vs, r, hargs, hr, rfl⟩
      · exact .alone rfl
      · cases r with
        | nil => exact .alone rfl
        | data d => exact .alone rfl
        | object u =>
          -- an object comes back from the host only if it was an argument, or leads nowhere
          rcases hlib name held vs _ hr u List.mem_cons_self with hu | hu
          · obtain ⟨a, hm, hto⟩ := HostData.mem_arguments _ hargs hu
            exact hh.toHost (ha a hm) hto
          · exact .alone hu

theorem sound_round (pos : Pos) (hlib : lib.Relays) (hh : s.heap.Sound G) {fn : Value}
    (hf : fn.Sound G s.heap) {args : List Value} (ha : ∀ a ∈ args, a.Sound G s.heap) :
    ∃ G', G.Extends s.heap G' ∧ (round lib pos fn args s).2.heap.Sound G' ∧
      (round lib pos fn args s).1.Sound G' (round lib pos fn args s).2.heap := by
  unfold round
  split
  · exact ⟨G, .refl _ _, hh, rfl⟩
  · rename_i f before hc
    obtain ⟨hfs, hb⟩ := hf.callable? hc
    have hall : ∀ a ∈ before ++ args, a.Sound G s.heap := fun a hm =>
      (List.mem_append.mp hm).elim (hb a) (ha a)
    simp only
    split
    · exact ⟨G, .refl _ _, hh, .partialApp hfs hall⟩
    · rename_i hlen
      refine sound_call pos hlib hh hfs ?_ (fun a hm => hall a (List.mem_of_mem_take hm))
        fun a hm => hall a (List.mem_of_mem_drop hm)
      rw [List.length_take]
      omega

end Applied

end LazySession
