import LazySession.Proofs.Eval.Framing
import LazySession.Proofs.Origin.Marks

/-!
# Where errors are placed

Code is evaluated in marked places only, its source being the one that errors name:
`Machine.Inside`. So an error names a place of that source, but for a thunk that needs its own
value. There the position is one in the source of the thunk, and the source is the one from which
the thunk was demanded. `EvalState.inside_force`: what is evaluated leads no further than before, and
its errors are placed where its marks are.
-/

namespace LazySession

/-- A thunk needs its own value. -/
def RuntimeFault.isLoop : RuntimeFault → Bool
  | loop _ => true
  | _ => false

/-- The error is placed at a mark. If it is that of a loop, its source and its position are those of
marks, which need not be the same. -/
structure RuntimeError.Inside (M : Marks) (e : RuntimeError) : Prop where
  place : e.fault.isLoop = false → (e.place.source, e.pos) ∈ M
  source : ∃ p, (e.place.source, p) ∈ M
  pos : ∃ source, (source, e.pos) ∈ M

section
variable {L L' : Labels} {M M' B T : Marks} {s : EvalState} {pos : Pos} {source : String}

theorem RuntimeError.inside_of_mem {e : RuntimeError} (h : (e.place.source, e.pos) ∈ M) :
    e.Inside M :=
  ⟨fun _ => h, ⟨_, h⟩, ⟨_, h⟩⟩

theorem RuntimeError.Inside.mono {e : RuntimeError} (h : e.Inside M) (hM : M ⊆ M') : e.Inside M' :=
  ⟨fun hl => hM (h.place hl), h.source.imp fun _ hp => hM hp, h.pos.imp fun _ hp => hM hp⟩

/-! ## Applications -/

namespace Applied

/-- What is to be done next leads only to marked places. -/
def Inside (L : Labels) (M : Marks) : Applied → Prop
  | done (.ok v) => v.Inside L M
  | done (.error e) => e.Inside M
  | enter c scope others =>
    Covers M (L.scopes scope) ∧ c.body.Lies M c.source ∧ ∀ a ∈ others, a.Inside L M
  | again fn others => fn.Inside L M ∧ ∀ a ∈ others, a.Inside L M

variable {lib : HostLibrary}

theorem inside_give {v : Value} {others : List Value} (hv : v.Inside L M)
    (ho : ∀ a ∈ others, a.Inside L M) : (give v others).Inside L M := by
  cases others with
  | nil => exact hv
  | cons a as => exact ⟨hv, ho⟩

theorem inside_call (hlib : lib.Relays) (hh : s.heap.Inside L) (hp : (s.place.source, pos) ∈ M)
    {f : Callable} (hf : f.Inside L M) {args others : List Value} (hlen : f.arity ≤ args.length)
    (ha : ∀ a ∈ args, a.Inside L M) (ho : ∀ a ∈ others, a.Inside L M) :
    ∃ L', L.Extends L' ∧ (call lib pos f args others s).2.heap.Inside L' ∧
      (call lib pos f args others s).1.Inside L' M := by
  have same : ∀ {a : Applied}, a.Inside L M →
      ∃ L', L.Extends L' ∧ s.heap.Inside L' ∧ a.Inside L' M :=
    fun h => ⟨L, .refl L, hh, h⟩
  cases f with
  | closure c =>
    simp only [call]
    split
    · exact same (RuntimeError.inside_of_mem hp)
    · rename_i vars hb
      obtain ⟨hm, -⟩ := Closure.bindParams_spec hb hlen
      have hvars : ∀ x v, Table.get? vars.reverse x = some v → v.Inside L M := fun x v hx =>
        ha v (hm (x, v) (List.mem_reverse.mp (Table.mem_of_get? hx)))
      -- the new scope holds the arguments, and hangs below that of the closure
      have hscope : ∀ o, some c.scope = some o → Covers M (L.scopes o) := by
        rintro o ⟨⟩
        exact hf.scope
      have hL := Labels.extends_setScope hh.scopes_none M
      exact ⟨_, hL, hh.newScope hvars hscope, L.covers_setScope _ M, hf.body,
        fun a hm => (ho a hm).mono hL subset_rfl⟩
  | builtin b =>
    simp only [call]
    split
    · exact same (RuntimeError.inside_of_mem hp)
    · rename_i v h' hb
      rcases Builtin.call_cases hb with ⟨a, _, rfl, rfl, rfl⟩ | ⟨id, _, rfl, hget, rfl⟩ |
        ⟨hplain, rfl⟩
      · have hL := Labels.extends_setCell hh.cells_none M
        exact ⟨_, hL, hh.newCell (ha a List.mem_cons_self),
          inside_give (.cell (L.covers_setCell _ M)) fun a hm => (ho a hm).mono hL subset_rfl⟩
      · refine same (inside_give ?_ ho)
        cases ha _ List.mem_cons_self with
        | alone hal => cases hal
        | cell hid => exact hh.getCell? hid hget
      · exact same (inside_give (.alone (Value.isAlone_of_isPlain hplain)) ho)
  | host d =>
    simp only [call]
    split
    · exact same (RuntimeError.inside_of_mem hp)
    · rename_i v hc
      refine same (inside_give ?_ ho)
      rcases HostData.call_cases hc with rfl | ⟨ps, name, held, vs, r, hargs, hr, rfl⟩
      · exact .alone rfl
      · cases r with
        | nil => exact .alone rfl
        | data d => exact .alone rfl
        | object u =>
          rcases hlib name held vs _ hr u List.mem_cons_self with hu | hu
          -- an object that comes back was an argument
          · obtain ⟨a, hm, hto⟩ := HostData.mem_arguments _ hargs hu
            exact hh.toHost (ha a hm) hto
          · exact .alone hu

theorem inside_round (hlib : lib.Relays) (hh : s.heap.Inside L) (hp : (s.place.source, pos) ∈ M)
    {fn : Value} (hf : fn.Inside L M) {args : List Value} (ha : ∀ a ∈ args, a.Inside L M) :
    ∃ L', L.Extends L' ∧ (round lib pos fn args s).2.heap.Inside L' ∧
      (round lib pos fn args s).1.Inside L' M := by
  unfold round
  split
  · exact ⟨L, .refl L, hh, RuntimeError.inside_of_mem hp⟩
  · rename_i f before hc
    obtain ⟨hfs, hb⟩ := hf.callable? hc
    have hall : ∀ a ∈ before ++ args, a.Inside L M := fun a hm =>
      (List.mem_append.mp hm).elim (hb a) (ha a)
    simp only
    split
    · exact ⟨L, .refl L, hh, .partialApp hfs hall⟩
    · rename_i hlen
      refine inside_call hlib hh hp hfs ?_ (fun a hm => hall a (List.mem_of_mem_take hm))
        fun a hm => hall a (List.mem_of_mem_drop hm)
      rw [List.length_take]
      omega

end Applied

/-! ## Configurations -/

/-- What is to be done next leads only to places marked in `M`, and code is written in `source`.
Errors are those of the whole evaluation. -/
def Control.Inside (L : Labels) (B M : Marks) (source : String) : Control → Prop
  | .eval _ e scope => Covers M (L.scopes scope) ∧ e.Lies M source
  | .apply _ pos fn args => (source, pos) ∈ M ∧ fn.Inside L M ∧ ∀ a ∈ args, a.Inside L M
  | .give (.ok v) => v.Inside L M
  | .give (.error e) => e.Inside B

namespace Frame

/-- The frame goes on in the code around it. -/
def Inside (L : Labels) (M : Marks) (source : String) : Frame → Prop
  | .function _ pos args scope =>
    Covers M (L.scopes scope) ∧ (source, pos) ∈ M ∧ ∀ a ∈ args, a.Lies M source
  | .argument _ pos fn before after scope => Covers M (L.scopes scope) ∧ (source, pos) ∈ M ∧
    fn.Inside L M ∧ (∀ v ∈ before, v.Inside L M) ∧ ∀ a ∈ after, a.Lies M source
  | .left _ pos _ r scope => Covers M (L.scopes scope) ∧ (source, pos) ∈ M ∧ r.Lies M source
  | .right _ pos _ l => (source, pos) ∈ M ∧ l.Inside L M
  | .negate pos => (source, pos) ∈ M
  | .test _ pos yes no scope =>
    Covers M (L.scopes scope) ∧ (source, pos) ∈ M ∧ yes.Lies M source ∧ no.Lies M source
  | .thunk .. | .body .. => False

/-- Frames that wait for a value within `M` from code in `source`. A thunk leads no further than its
label; what demanded it leads further. The source of a frame below is the one it comes back to. In
the end, a value within `B` is given. -/
inductive Returns (L : Labels) (B : Marks) : Marks → String → List Frame → Prop
  | nil {source : String} : Returns L B B source []
  | frame {M : Marks} {source : String} {f : Frame} {fs : List Frame} (hf : f.Inside L M source)
    (hfs : Returns L B M source fs) : Returns L B M source (f :: fs)
  | thunk {M T : Marks} {source : String} {id : ThunkId} {t : Thunk} {pos : Pos} {place : Place}
    {fs : List Frame} (hid : L.thunks id = some T) (hT : T ⊆ M) (hpos : (t.source, pos) ∈ T)
    (hfs : Returns L B M place.source fs) : Returns L B T source (.thunk id t pos place :: fs)
  | body {M : Marks} {source : String} {depth : Nat} {pos : Pos} {place : Place}
    {others : List Value} {fs : List Frame} (hpos : (place.source, pos) ∈ M)
    (ho : ∀ a ∈ others, a.Inside L M) (hfs : Returns L B M place.source fs) :
    Returns L B M source (.body depth pos place others :: fs)

variable {fs : List Frame}

theorem Inside.mono {f : Frame} (hf : f.Inside L M source) (hL : L.Extends L') :
    f.Inside L' M source := by
  cases f with
  | function depth pos args scope => exact ⟨hL.covers_scope hf.1, hf.2⟩
  | argument depth pos fn before after scope =>
    obtain ⟨hs, hp, hfn, hb, ha⟩ := hf
    exact ⟨hL.covers_scope hs, hp, hfn.mono hL subset_rfl, fun v hm => (hb v hm).mono hL subset_rfl, ha⟩
  | left depth pos op right scope => exact ⟨hL.covers_scope hf.1, hf.2⟩
  | right depth pos op left => exact ⟨hf.1, Value.Inside.mono hf.2 hL subset_rfl⟩
  | negate pos => exact hf
  | test depth pos yes no scope => exact ⟨hL.covers_scope hf.1, hf.2⟩
  | thunk id t pos place => exact hf
  | body depth pos place others => exact hf

theorem Returns.mono (h : Returns L B M source fs) (hL : L.Extends L') :
    Returns L' B M source fs := by
  induction h with
  | nil => exact .nil
  | frame hf _ ih => exact .frame (hf.mono hL) ih
  | thunk hid hT hpos _ ih => exact .thunk (hL.thunks _ _ hid) hT hpos ih
  | body hpos ho _ ih => exact .body hpos (fun a hm => (ho a hm).mono hL subset_rfl) ih

theorem Returns.subset (h : Returns L B M source fs) : M ⊆ B := by
  induction h with
  | nil => exact subset_rfl
  | frame _ _ ih => exact ih
  | thunk _ hT _ _ ih => exact hT.trans ih
  | body _ _ _ ih => exact ih

end Frame

namespace Machine

open LazySession.Frame (Returns)

/-- The code that is evaluated, and all that is waited for, is in marked places. -/
structure Inside (B : Marks) (L : Labels) (c : Machine) : Prop where
  heap : c.state.heap.Inside L
  returns : ∃ M, Returns L B M c.state.place.source c.frames ∧
    c.control.Inside L B M c.state.place.source

variable {frames : List Frame} {v : Value} {e : Expr} {scope : ScopeId}

theorem inside_mk {control : Control} (hh : s.heap.Inside L)
    (hr : Returns L B M s.place.source frames) (hc : control.Inside L B M s.place.source) :
    Inside B L ⟨control, frames, s⟩ :=
  ⟨hh, M, hr, hc⟩

theorem inside_error (hh : s.heap.Inside L) (hr : Returns L B M s.place.source frames)
    (hp : (s.place.source, pos) ∈ M) (fault : RuntimeFault) :
    Inside B L (error pos fault frames s) :=
  inside_mk hh hr (RuntimeError.inside_of_mem (hr.subset hp))

/-- A value is demanded from marked code, or the thunk is not one that is being evaluated. -/
theorem inside_demand (hh : s.heap.Inside L) (hr : Returns L B M s.place.source frames)
    (hv : v.Inside L M)
    (hp : ∀ id, v = .thunk id → s.heap.Forcing id → ∃ p, (s.place.source, p) ∈ M) (depth : Nat) :
    Inside B L (demand depth v frames s) := by
  unfold demand EvalState.demand
  cases hv with
  | thunk hid =>
    rename_i id
    obtain ⟨T, hT, hsub⟩ := hid
    obtain ⟨t, ht, ⟨e, scope, hc, hscope, he⟩, hdone⟩ := hh.thunks id T hT
    simp only [ht, hc]
    cases hstate : t.state with
    | done u => exact inside_mk hh hr ((hdone u hstate).mono (.refl L) hsub)
    | pending =>
      refine inside_mk (M := T) (hh.setThunk id nofun) (.thunk hT hsub he.pos hr) ⟨hscope, he⟩
    | forcing =>
      obtain ⟨p, hp⟩ := hp id rfl ⟨t, ht, hstate⟩
      exact inside_mk hh hr ⟨nofun, ⟨p, hr.subset hp⟩, ⟨t.source, hr.subset (hsub he.pos)⟩⟩
  | alone ha =>
    have hv : v.Inside L M := .alone ha
    cases v with
    | thunk id => cases ha
    | _ => exact inside_mk hh hr hv
  | closure hc => exact inside_mk hh hr (.closure hc)
  | partialApp hf ha => exact inside_mk hh hr (.partialApp hf ha)
  | cell hid => exact inside_mk hh hr (.cell hid)

theorem inside_arguments (hh : s.heap.Inside L) (hr : Returns L B M s.place.source frames)
    {fn : Value} {before : List Value} {after : List Expr} (hs : Covers M (L.scopes scope))
    (hp : (s.place.source, pos) ∈ M) (hf : fn.Inside L M) (hb : ∀ v ∈ before, v.Inside L M)
    (ha : ∀ a ∈ after, a.Lies M s.place.source) (depth : Nat) :
    Inside B L (arguments depth pos fn before after scope frames s) := by
  cases after with
  | nil => exact inside_mk hh hr ⟨hp, hf, fun a hm => hb a (List.mem_reverse.mp hm)⟩
  | cons a as =>
    refine inside_mk (M := M) hh (.frame ⟨hs, hp, hf, hb, fun a hm => ?_⟩ hr) ⟨hs, ?_⟩
    · exact ha a (List.mem_cons_of_mem _ hm)
    · exact ha a List.mem_cons_self

theorem inside_operate (hh : s.heap.Inside L) (hr : Returns L B M s.place.source frames)
    (hp : (s.place.source, pos) ∈ M) {l r : Value} (hl : l.Inside L M) (hv : r.Inside L M)
    (depth : Nat) (op : Operator) : Inside B L (operate depth pos op l r frames s) := by
  unfold operate
  split
  · refine inside_mk hh hr ⟨hp, hl, fun a hm => ?_⟩
    rw [List.mem_singleton.mp hm]
    exact hv
  · split
    · rename_i v hv
      exact inside_mk hh hr (.alone (Value.isAlone_of_isPlain (Operator.isPlain_eval hv)))
    · exact inside_error hh hr hp _

/-- What a thunk comes to is kept within its label, and given to what demanded it. -/
theorem inside_finishThunk (hh : s.heap.Inside L) {id : ThunkId} {t : Thunk} {place : Place}
    (hid : L.thunks id = some T) (hT : T ⊆ M) (hpos : (t.source, pos) ∈ T)
    (hr : Returns L B M place.source frames) {r : Except RuntimeError Value}
    (hc : (Control.give r).Inside L B T s.place.source) :
    Inside B L ⟨.give (s.finishThunk id t pos place r).1, frames,
      (s.finishThunk id t pos place r).2⟩ := by
  cases r with
  | error e => exact inside_mk (hh.setThunk id nofun) hr hc
  | ok v =>
    have hv : Value.Inside L T v := hc
    have hdone : (s.heap.setThunk id (.done v)).Inside L := by
      refine hh.setThunk id fun u N hu hN => ?_
      cases hu
      rw [hid] at hN
      cases hN
      exact hv
    have hgive := hv.mono (.refl L) hT
    simp only [EvalState.finishThunk]
    split
    · exact inside_mk hdone hr hgive
    · split
      · exact inside_mk hdone hr hgive
      · exact inside_mk (hh.setThunk id nofun) hr
          (RuntimeError.inside_of_mem (hr.subset (hT hpos)))

theorem inside_resume {f : Frame} (hh : s.heap.Inside L)
    (hr : Returns L B M s.place.source (f :: frames)) (hv : v.Inside L M) :
    Inside B L (resume f v frames s) := by
  cases hr with
  | thunk hid hT hpos hr => exact inside_finishThunk (r := .ok v) hh hid hT hpos hr hv
  | @body _ _ depth pos place others _ hpos ho hr =>
    cases others with
    | nil => exact inside_mk hh hr hv
    | cons a as => exact inside_mk hh hr ⟨hpos, hv, ho⟩
  | frame hf hr =>
    cases f with
    | function depth pos args scope =>
      exact inside_arguments hh hr hf.1 hf.2.1 hv (by simp) hf.2.2 _
    | argument depth pos fn before after scope =>
      obtain ⟨hs, hp, hfn, hb, ha⟩ := hf
      exact inside_arguments hh hr hs hp hfn (List.forall_mem_cons.mpr ⟨hv, hb⟩) ha _
    | left depth pos op right scope =>
      have hright : Inside B L ⟨.eval depth right scope, .right depth pos op v :: frames, s⟩ :=
        inside_mk (M := M) hh (.frame ⟨hf.2.1, hv⟩ hr) ⟨hf.1, hf.2.2⟩
      simp only [resume]
      split
      · split
        · exact inside_error hh hr hf.2.1 _
        · exact inside_mk hh hr (.alone rfl)
        · exact hright
      · exact hright
    | right depth pos op left => exact inside_operate hh hr hf.1 hf.2 hv _ _
    | negate pos =>
      simp only [resume]
      split
      · exact inside_mk hh hr (.alone rfl)
      · exact inside_error hh hr hf _
    | test depth pos yes no scope =>
      obtain ⟨hs, hp, hy, hn⟩ := hf
      simp only [resume]
      split
      · rename_i b _
        cases b with
        | true => exact inside_mk hh hr ⟨hs, hy⟩
        | false => exact inside_mk hh hr ⟨hs, hn⟩
      · exact inside_error hh hr hp _
    | thunk id t pos place => cases hf
    | body depth pos place others => cases hf

theorem inside_unwind {f : Frame} (hh : s.heap.Inside L)
    (hr : Returns L B M s.place.source (f :: frames)) {e : RuntimeError} (he : e.Inside B) :
    Inside B L (unwind f e frames s) := by
  cases hr with
  | thunk hid hT hpos hr =>
    exact inside_finishThunk (r := .error e) hh hid hT hpos hr he
  | body hpos ho hr => exact inside_mk hh hr he
  | frame hf hr =>
    cases f with
    | thunk id t pos place => cases hf
    | body depth pos place others => cases hf
    | _ => exact inside_mk hh hr he

theorem inside_node (hh : s.heap.Inside L) (hr : Returns L B M s.place.source frames)
    (hs : Covers M (L.scopes scope)) (he : e.Lies M s.place.source) (depth : Nat) :
    ∃ L', L.Extends L' ∧ Inside B L' (node depth e scope frames s) := by
  have same : ∀ {c : Machine}, Inside B L c → ∃ L', L.Extends L' ∧ Inside B L' c :=
    fun hc => ⟨L, .refl L, hc⟩
  have hpos := he.pos
  cases e with
  | var p name | qualified p mod name =>
    simp only [node]
    split
    · rename_i v hv
      exact same (inside_demand hh hr (hh.lookup scope hs hv) (fun _ _ _ => ⟨p, hpos⟩) depth)
    · exact same (inside_error hh hr hpos _)
  | int | str | bool | unit => exact same (inside_mk hh hr (.alone rfl))
  | app fn args =>
    refine same (inside_mk (M := M) hh (.frame ⟨hs, hpos, fun a hm => ?_⟩ hr) ⟨hs, ?_⟩)
    · exact he.part (.argument hm)
    · exact he.part .function
  | binary p op l r =>
    exact same (inside_mk (M := M) hh (.frame ⟨hs, hpos, he.part .right⟩ hr) ⟨hs, he.part .left⟩)
  | negate p x =>
    exact same (inside_mk (M := M) hh (.frame (f := .negate p) hpos hr) ⟨hs, he.part .negated⟩)
  | cond p test yes no =>
    have htest := he.part .test
    exact same (inside_mk (M := M) hh
      (.frame ⟨hs, htest.pos, he.part .yes, he.part .no⟩ hr) ⟨hs, htest⟩)
  | lambda p param more body =>
    exact same (inside_mk hh hr (.closure ⟨hs, he.part .lambdaBody⟩))
  | operator p op =>
    have hL := Labels.extends_setScope hh.scopes_none M
    have hh' : (s.heap.newScope [] none).2.Inside (L.setScope s.heap.scopes.size M) :=
      hh.newScope (by simp [Table.get?]) (by simp)
    exact ⟨_, hL, inside_mk hh' (hr.mono hL)
      (.closure ⟨L.covers_setScope _ M, Expr.lies_ofOperator hpos op _⟩)⟩
  | letIn p binds body =>
    have hL := Labels.extends_setScope hh.scopes_none M
    have hh' : (s.heap.newScope [] (some scope)).2.Inside (L.setScope s.heap.scopes.size M) :=
      hh.newScope (by simp [Table.get?]) (by rintro o ⟨⟩; exact hs)
    have hdefs : ∀ d ∈ binds.map fun b => (⟨b, s.place.source, none⟩ : Definition),
        d.binding.body.Lies M d.source := by
      intro d hd
      obtain ⟨b, hb, rfl⟩ := List.mem_map.mp hd
      exact he.part (.bound hb)
    obtain ⟨L', hL', hh'', -⟩ := hh'.define (Function.update_self ..) hdefs
    rw [← Loader.newBindings_eq] at hh''
    have hext := hL.trans hL'
    exact ⟨L', hext, inside_mk hh'' (hr.mono hext)
      ⟨hL'.covers_scope (L.covers_setScope _ M), he.part .letBody⟩⟩

theorem inside_next {set : Setting} (hlib : set.host.Relays) {c c' : Machine} (hc : Inside B L c)
    (hn : c.next set = .going c') : ∃ L', L.Extends L' ∧ Inside B L' c' := by
  obtain ⟨hh, M, hr, hcontrol⟩ := hc
  obtain ⟨control, frames, s⟩ := c
  cases control with
  | eval depth e scope =>
    cases hn
    obtain ⟨hs, he⟩ := hcontrol
    cases depth with
    | zero => exact ⟨L, .refl L, inside_error hh hr he.pos _⟩
    | succ depth =>
      obtain ⟨patience, htick, -⟩ := tick_eq s
      simp only [evaluate, htick]
      split
      · exact ⟨L, .refl L, inside_mk (s := { s with steps := _, patience }) hh hr
          (RuntimeError.inside_of_mem (hr.subset he.pos))⟩
      · exact inside_node (s := { s with steps := _, patience }) hh hr hs he depth
  | apply depth pos fn args =>
    rw [next_apply] at hn
    cases hn
    obtain ⟨hp, hf, ha⟩ := hcontrol
    obtain ⟨L', hL, hh', hround⟩ := Applied.inside_round hlib hh hp hf ha
    obtain ⟨-, hplace⟩ := thunks_round set.host pos fn args s
    refine ⟨L', hL, ?_⟩
    replace hr := hr.mono hL
    simp only at hp hr
    generalize Applied.round set.host pos fn args s = q at hh' hround hplace ⊢
    obtain ⟨a, s'⟩ := q
    simp only at hplace hh' hround ⊢
    rw [← hplace] at hp hr
    cases a with
    | done r =>
      cases r with
      | ok v => exact inside_mk hh' hr hround
      | error e => exact inside_mk hh' hr (RuntimeError.Inside.mono hround hr.subset)
    | enter c scope others =>
      obtain ⟨hs, hb, ho⟩ := hround
      exact inside_mk (M := M) (s := s'.enter c.source c.traceName) hh' (.body hp ho hr) ⟨hs, hb⟩
    | again fn others => exact inside_mk hh' hr ⟨hp, hround⟩
  | give r =>
    cases frames with
    | nil => cases r <;> cases hn
    | cons f frames =>
      cases r with
      | ok v => cases hn; exact ⟨L, .refl L, inside_resume hh hr hcontrol⟩
      | error e => cases hn; exact ⟨L, .refl L, inside_unwind hh hr hcontrol⟩

theorem inside_run {set : Setting} (hlib : set.host.Relays) {c : Machine} (hc : Inside B L c) :
    ∃ L', L.Extends L' ∧ Inside B L' ⟨.give (run set c).1, [], (run set c).2⟩ :=
  run_keeps (P := fun c => ∃ L', L.Extends L' ∧ Inside B L' c)
    (fun _ _ h hn => by
      obtain ⟨L₁, hL₁, hc⟩ := h
      obtain ⟨L₂, hL₂, hc'⟩ := inside_next hlib hc hn
      exact ⟨L₂, hL₁.trans hL₂, hc'⟩)
    c ⟨L, .refl L, hc⟩

/-! ## Thunks that are being evaluated -/

/-- Only thunks that have been entered and not left are being evaluated. -/
def Busy (c : Machine) : Prop := ∀ id, c.state.heap.Forcing id → id ∈ c.held

theorem busy_shift {c d : Machine} (hc : c.Busy) (h : Shift c d) : d.Busy := by
  rintro id ⟨t, ht, hf⟩
  have hsame : ∀ {i : ThunkId} {state : ThunkState}, id ≠ i →
      d.state.heap.thunks = (c.state.heap.setThunk i state).thunks → id ∈ c.held := by
    intro i state hne hheap
    rw [hheap, getElem?_setThunk_ne hne] at ht
    exact hc id ⟨t, ht, hf⟩
  cases h with
  | stay hopen _ hheap =>
    rw [held_eq, hopen, ← held_eq]
    rcases hheap.new id t ht with ht | hp
    · exact hc id ⟨t, ht, hf⟩
    · rw [hp] at hf
      cases hf
  | call hopen hheap =>
    rw [hheap] at ht
    have hid := hc id ⟨t, ht, hf⟩
    rw [held_eq] at hid ⊢
    rw [hopen]
    exact hid
  | back hopen _ hheap =>
    rw [hheap] at ht
    have hid := hc id ⟨t, ht, hf⟩
    rw [held_eq, hopen] at hid
    rw [held_eq]
    exact hid
  | @into i t' pos hopen _ _ hheap =>
    rw [held_eq, hopen]
    by_cases hid : id = i
    · rw [hid]
      exact List.mem_cons_self
    · have hm := hsame hid hheap
      rw [held_eq] at hm
      exact List.mem_cons_of_mem _ hm
  | @out i t' pos place state hframes _ hheap hstate =>
    by_cases hid : id = i
    · -- what has been left is pending or has a value
      subst hid
      rw [hheap] at ht
      obtain ⟨u, hu, rfl⟩ : ∃ u, c.state.heap.thunks[id]? = some u ∧ { u with state } = t := by
        simpa [Heap.setThunk, Array.getElem?_modify] using ht
      rcases hstate with rfl | ⟨v, -, rfl, -⟩ <;> cases hf
    · have hm := hsame hid hheap
      rw [held, hframes] at hm
      exact (List.mem_cons.mp hm).resolve_left hid

end Machine

/-- No thunk is being evaluated. -/
def Heap.Idle (h : Heap) : Prop := ∀ id, ¬ h.Forcing id

theorem Heap.Adds.idle {h h' : Heap} (a : h.Adds h') (hi : h.Idle) : h'.Idle := by
  rintro id ⟨t, ht, hf⟩
  rcases a.new id t ht with ht | hp
  · exact hi id ⟨t, ht, hf⟩
  · rw [hp] at hf
    cases hf

namespace EvalState

theorem idle_force (set : Setting) (hi : s.heap.Idle) (v : Value) : (s.force set v).2.heap.Idle := by
  have hstart : (Machine.demand set.limit v [] s).Busy :=
    Machine.busy_shift (c := ⟨.give (.ok v), [], s⟩) (fun id hf => absurd hf (hi id))
      (Machine.shift_demand _ _ _ _ _)
  have hend : (⟨.give (s.force set v).1, [], (s.force set v).2⟩ : Machine).Busy :=
    Machine.run_keeps (fun _ _ hc hn => Machine.busy_shift hc (Machine.shift_next hn)) _ hstart
  exact fun id hf => List.not_mem_nil (hend id hf)

/-- **Errors are placed in the code that is evaluated.** If a value leads only to marked places, what
it evaluates to does so, and an error is placed at a mark, unless it is that of a loop. The heap goes
on leading nowhere else. -/
theorem inside_force {set : Setting} (hlib : set.host.Relays) (hh : s.heap.Inside L)
    (hi : s.heap.Idle) {v : Value} (hv : v.Inside L M) :
    ∃ L', L.Extends L' ∧ (s.force set v).2.heap.Inside L' ∧
      match (s.force set v).1 with
      | .ok u => u.Inside L' M
      | .error e => e.Inside M := by
  have hstart : Machine.Inside M L (Machine.demand set.limit v [] s) :=
    Machine.inside_demand hh .nil hv (fun id _ hf => absurd hf (hi id)) _
  obtain ⟨L', hL, hh', M', hr, hc⟩ := Machine.inside_run hlib hstart
  refine ⟨L', hL, hh', ?_⟩
  unfold force
  generalize Machine.run set (Machine.demand set.limit v [] s) = q at hr hc ⊢
  obtain ⟨r, s'⟩ := q
  cases hr
  cases r <;> exact hc

end EvalState

end

end LazySession
