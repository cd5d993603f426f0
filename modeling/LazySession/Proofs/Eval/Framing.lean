import LazySession.Proofs.Eval.Course
import LazySession.Proofs.Eval.Evaluated

/-!
# What evaluation leaves as it was

Whatever a task comes to, the machine is then back where it was: at the same place, with the same
frames, and with the same thunks under evaluation. Of the objects that were there, only pending
thunks have changed, and only by getting a value of the type that they have to have:
`Task.restores`. This takes for granted that a host function writes nothing into the objects that it is
given, as every `HostLibrary` does, and that it gives no thunks (`HostLibrary.MakesNoThunks`).

`Machine.Shift` says once what a step can do to places and thunks.
-/

namespace LazySession

/-- The value is of the type that the thunk has to have. -/
def Thunk.Accepts (t : Thunk) (v : Value) : Prop :=
  ∀ want, t.want = some want → v.conforms want = true

namespace Heap

/-- The thunk is being evaluated. -/
def Forcing (h : Heap) (id : ThunkId) : Prop :=
  ∃ t, h.thunks[id]? = some t ∧ t.state = .forcing

/-- The thunk was pending and now has a value, which is no thunk and of the right type. -/
def Evaluates (h : Heap) (id : ThunkId) (t : Thunk) : Prop :=
  t.state = .pending ∧ ∃ v, h.thunks[id]? = some { t with state := .done v } ∧
    (∀ i, v ≠ .thunk i) ∧ t.Accepts v

/-- What an evaluation may do to the objects that were there before. -/
structure Advances (h h' : Heap) : Prop where
  scopes : ∀ (id : ScopeId) sc, h.scopes[id]? = some sc → h'.scopes[id]? = some sc
  cells : ∀ (id : CellId) c, h.cells[id]? = some c → h'.cells[id]? = some c
  thunks : ∀ (id : ThunkId) t, h.thunks[id]? = some t →
    h'.thunks[id]? = some t ∨ h'.Evaluates id t
  forcing : ∀ id, h'.Forcing id ↔ h.Forcing id

/-- The thunks are the same, but for new ones, which are pending. -/
structure Adds (h h' : Heap) : Prop where
  old : ∀ (id : ThunkId) t, h.thunks[id]? = some t → h'.thunks[id]? = some t
  new : ∀ (id : ThunkId) t, h'.thunks[id]? = some t → h.thunks[id]? = some t ∨ t.state = .pending

variable {h h' h'' : Heap}

theorem Adds.of_eq (ht : h'.thunks = h.thunks) : h.Adds h' where
  old id t hid := by rw [ht]; exact hid
  new id t hid := by rw [ht] at hid; exact .inl hid

theorem Adds.trans (a : h.Adds h') (a' : h'.Adds h'') : h.Adds h'' where
  old id t hid := a'.old id t (a.old id t hid)
  new id t hid := (a'.new id t hid).elim (a.new id t) .inr

theorem adds_newBinding (h : Heap) (b : Binding) (scope : ScopeId) (source : String)
    (want : Option BaseType) : h.Adds (h.newBinding b scope source want).2 := by
  unfold newBinding
  split
  · exact .of_eq rfl
  · refine ⟨fun id t hid => ?_, fun id t hid => ?_⟩
    · have := (Array.getElem?_eq_some_iff.mp hid).1
      simp only [newThunk, Array.getElem?_push]
      rw [if_neg (by omega)]
      exact hid
    · simp only [newThunk, Array.getElem?_push] at hid
      split at hid
      · cases hid
        exact .inr rfl
      · exact .inl hid

theorem adds_newBindings (scope : ScopeId) (source : String) (bs : List Binding) :
    ∀ h : Heap, h.Adds (h.newBindings bs scope source) := by
  induction bs with
  | nil => exact fun h => .of_eq rfl
  | cons b bs ih =>
    intro h
    have hb := adds_newBinding h b scope source none
    have hrest := ih ((h.newBinding b scope source none).2.setVar scope b.name
      (h.newBinding b scope source none).1)
    exact hb.trans ⟨hrest.old, hrest.new⟩

end Heap

/-! ## Steps -/

/-- The place that a frame comes back to. -/
def Frame.place? : Frame → Option Place
  | .thunk _ _ _ place => some place
  | .body _ _ place _ => some place
  | _ => none

namespace Machine

/-- The frames of the thunks and functions that have been entered and not left. -/
def opened (c : Machine) : List Frame := c.frames.filter fun f => f.place?.isSome

/-- What a step can do: it goes into a function or a thunk or comes back from it, or stays where it
is and makes at most new thunks. -/
inductive Shift (c d : Machine) : Prop
  | stay (hopen : d.opened = c.opened) (hplace : d.state.place = c.state.place)
    (hheap : c.state.heap.Adds d.state.heap)
  | call {depth : Nat} {pos : Pos} {others : List Value}
    (hopen : d.opened = .body depth pos c.state.place others :: c.opened)
    (hheap : d.state.heap.thunks = c.state.heap.thunks)
  | back {depth : Nat} {pos : Pos} {place : Place} {others : List Value}
    (hopen : c.opened = .body depth pos place others :: d.opened) (hplace : d.state.place = place)
    (hheap : d.state.heap.thunks = c.state.heap.thunks)
  | into {id : ThunkId} {t : Thunk} {pos : Pos}
    (hopen : d.opened = .thunk id t pos c.state.place :: c.opened)
    (ht : c.state.heap.thunks[id]? = some t) (hpending : t.state = .pending)
    (hheap : d.state.heap.thunks = (c.state.heap.setThunk id .forcing).thunks)
  | out {id : ThunkId} {t : Thunk} {pos : Pos} {place : Place} {state : ThunkState}
    (hframes : c.frames = .thunk id t pos place :: d.frames) (hplace : d.state.place = place)
    (hheap : d.state.heap.thunks = (c.state.heap.setThunk id state).thunks)
    (hstate : state = .pending ∨
      ∃ v, c.control = .give (.ok v) ∧ state = .done v ∧ t.Accepts v)

variable {set : Setting} {c d : Machine} {control control' : Control} {frames : List Frame}
variable {s s' : EvalState}

theorem opened_cons {f : Frame} (hf : f.place? = none) :
    opened ⟨control, f :: frames, s⟩ = opened ⟨control', frames, s'⟩ := by
  simp [opened, hf]

theorem opened_push {f : Frame} {place : Place} (hf : f.place? = some place) :
    opened ⟨control, f :: frames, s⟩ = f :: opened ⟨control', frames, s'⟩ := by
  simp [opened, hf]

theorem Shift.of_steps {steps : Nat} {patience : Patience}
    (h : Shift ⟨control, frames, { s with steps, patience }⟩ d) : Shift ⟨control, frames, s⟩ d := by
  cases h with
  | stay hopen hplace hheap => exact .stay hopen hplace hheap
  | call hopen hheap => exact .call hopen hheap
  | back hopen hplace hheap => exact .back hopen hplace hheap
  | into hopen ht hpending hheap => exact .into hopen ht hpending hheap
  | out hframes hplace hheap hstate => exact .out hframes hplace hheap hstate

theorem shift_same (hopen : d.opened = c.opened) (hs : d.state = c.state) : Shift c d :=
  .stay hopen (by rw [hs]) (.of_eq (by rw [hs]))

theorem shift_demand (control : Control) (depth : Nat) (v : Value) (frames : List Frame)
    (s : EvalState) : Shift ⟨control, frames, s⟩ (demand depth v frames s) := by
  unfold demand
  rcases s.demand_cases v with ⟨id, t, e, scope, rfl, ht, hp, hc, hd⟩ | hd | ⟨id, u, rfl, hu, hd⟩ |
    ⟨e, name, hd, -⟩
  · rw [hd]
    exact .into (opened_push rfl) ht hp rfl
  all_goals
    rw [hd]
    exact shift_same rfl rfl

theorem shift_node (control : Control) (depth : Nat) (e : Expr) (scope : ScopeId)
    (frames : List Frame) (s : EvalState) :
    Shift ⟨control, frames, s⟩ (node depth e scope frames s) := by
  cases e with
  | var p name | qualified p mod name =>
    simp only [node]
    split
    · apply shift_demand
    · exact shift_same rfl rfl
  | app fn args | binary p op l r | negate p x | cond p test yes no =>
    exact shift_same (opened_cons rfl) rfl
  | operator p op => exact .stay rfl rfl (.of_eq rfl)
  | letIn p binds body =>
    have hadds := Heap.adds_newBindings (s.heap.newScope [] (some scope)).1 s.place.source binds
      (s.heap.newScope [] (some scope)).2
    exact .stay rfl rfl ⟨hadds.old, hadds.new⟩
  | _ => exact shift_same rfl rfl

theorem shift_arguments (depth : Nat) (pos : Pos) (fn : Value) (before : List Value)
    (after : List Expr) (scope : ScopeId) {f : Frame} (hf : f.place? = none) :
    Shift ⟨control, f :: frames, s⟩ (arguments depth pos fn before after scope frames s) := by
  cases after with
  | nil => exact shift_same (opened_cons hf).symm rfl
  | cons a as =>
    have hdrop : opened ⟨control, f :: frames, s⟩ = opened ⟨control, frames, s⟩ := opened_cons hf
    refine shift_same ?_ rfl
    rw [hdrop]
    exact opened_cons rfl

theorem shift_resume (f : Frame) (v : Value) (frames : List Frame) (s : EvalState) :
    Shift ⟨.give (.ok v), f :: frames, s⟩ (resume f v frames s) := by
  cases f with
  | function depth pos args scope => exact shift_arguments _ _ _ _ _ _ rfl
  | argument depth pos fn before after scope => exact shift_arguments _ _ _ _ _ _ rfl
  | left depth pos op right scope =>
    simp only [resume]
    split
    · split <;> exact shift_same rfl rfl
    · exact shift_same rfl rfl
  | right depth pos op left =>
    simp only [resume, operate]
    split
    · exact shift_same rfl rfl
    · split <;> exact shift_same rfl rfl
  | negate pos | test depth pos yes no scope =>
    simp only [resume]
    split <;> exact shift_same rfl rfl
  | thunk id t pos place =>
    simp only [resume, EvalState.finishThunk]
    cases hw : t.want with
    | none => exact .out rfl rfl rfl (.inr ⟨v, rfl, rfl, by simp [Thunk.Accepts, hw]⟩)
    | some want =>
      by_cases hv : v.conforms want = true
      · simp only [hv, if_true]
        exact .out rfl rfl rfl (.inr ⟨v, rfl, rfl, by simp [Thunk.Accepts, hw, hv]⟩)
      · simp only [hv, Bool.false_eq_true, if_false]
        exact .out rfl rfl rfl (.inl rfl)
  | body depth pos place others =>
    cases others with
    | nil => exact .back (opened_push rfl) rfl rfl
    | cons a as => exact .back (opened_push rfl) rfl rfl

theorem shift_unwind (f : Frame) (e : RuntimeError) (frames : List Frame) (s : EvalState) :
    Shift ⟨.give (.error e), f :: frames, s⟩ (unwind f e frames s) := by
  cases f with
  | thunk id t pos place => exact .out rfl rfl rfl (.inl rfl)
  | body depth pos place others => exact .back (opened_push rfl) rfl rfl
  | _ => exact shift_same rfl rfl

/-- A round of application makes no thunks, and stays at its place. -/
theorem thunks_round (lib : HostLibrary) (pos : Pos) (fn : Value) (args : List Value)
    (s : EvalState) :
    (Applied.round lib pos fn args s).2.heap.thunks = s.heap.thunks ∧
      (Applied.round lib pos fn args s).2.place = s.place := by
  unfold Applied.round
  split
  · exact ⟨rfl, rfl⟩
  · rename_i f before _
    simp only
    split
    · exact ⟨rfl, rfl⟩
    · cases f with
      | closure c =>
        simp only [Applied.call]
        split <;> exact ⟨rfl, rfl⟩
      | builtin b =>
        simp only [Applied.call]
        split
        · exact ⟨rfl, rfl⟩
        · rename_i hb
          obtain ⟨a, _, _, _, rfl⟩ | ⟨_, _, _, _, rfl⟩ | ⟨_, rfl⟩ := Builtin.call_cases hb <;>
            exact ⟨rfl, rfl⟩
      | host d =>
        simp only [Applied.call]
        split <;> exact ⟨rfl, rfl⟩

theorem shift_next (hn : c.next set = .going d) : Shift c d := by
  obtain ⟨control, frames, s⟩ := c
  cases control with
  | eval depth e scope =>
    cases hn
    cases depth with
    | zero => exact shift_same rfl rfl
    | succ depth =>
      obtain ⟨patience, htick, -⟩ := tick_eq s
      simp only [evaluate, htick]
      split
      · exact .stay rfl rfl (.of_eq rfl)
      · exact .of_steps (shift_node ..)
  | apply depth pos fn args =>
    rw [next_apply] at hn
    cases hn
    obtain ⟨hthunks, hplace⟩ := thunks_round set.host pos fn args s
    generalize Applied.round set.host pos fn args s = p at hthunks hplace
    obtain ⟨a, s'⟩ := p
    cases a with
    | done r => exact .stay rfl hplace (.of_eq hthunks)
    | enter c scope others =>
      have hopen : opened (applied depth pos (.enter c scope others) frames s') =
          .body depth pos s'.place others :: opened ⟨.apply depth pos fn args, frames, s⟩ :=
        opened_push rfl
      rw [show s'.place = s.place from hplace] at hopen
      exact .call hopen hthunks
    | again v others => exact .stay rfl hplace (.of_eq hthunks)
  | give r =>
    cases frames with
    | nil => cases r <;> cases hn
    | cons f frames =>
      cases r with
      | ok v => cases hn; apply shift_resume
      | error e => cases hn; apply shift_unwind

theorem opened_of_cons {f : Frame} {place : Place} (hc : c.frames = f :: d.frames)
    (hf : f.place? = some place) : c.opened = f :: d.opened := by
  simp [opened, hc, hf]

/-! ## Places -/

/-- The place that the machine is at when all that is open has been left. -/
def home (c : Machine) : Place :=
  (c.opened.filterMap Frame.place?).getLast?.getD c.state.place

theorem home_shift (h : Shift c d) : d.home = c.home := by
  unfold home
  cases h with
  | stay hopen hplace _ => rw [hopen, hplace]
  | call hopen _ => simp [hopen, Frame.place?, List.getLast?_cons]
  | back hopen hplace _ => simp [hopen, hplace, Frame.place?, List.getLast?_cons]
  | into hopen _ _ _ => simp [hopen, Frame.place?, List.getLast?_cons]
  | out hframes hplace _ _ =>
    simp [opened_of_cons hframes rfl, hplace, Frame.place?, List.getLast?_cons]

/-! ## Thunks -/

/-- What the thunks of `h` have become, those that are being evaluated now apart. -/
structure Since (h : Heap) (c : Machine) : Prop where
  /-- A thunk that has been entered was pending. -/
  entered : ∀ id t pos place, .thunk id t pos place ∈ c.opened →
    t.state = .pending ∧ c.state.heap.thunks[id]? = some { t with state := .forcing } ∧
      ∀ t', h.thunks[id]? = some t' → t' = t
  once : c.held.Nodup
  old : ∀ id t, id ∉ c.held → h.thunks[id]? = some t →
    c.state.heap.thunks[id]? = some t ∨ c.state.heap.Evaluates id t
  new : ∀ id t, id ∉ c.held → c.state.heap.thunks[id]? = some t → t.state = .forcing →
    h.thunks[id]? = some t

theorem held_eq (c : Machine) : c.held = c.opened.filterMap Frame.thunk? := by
  unfold held opened
  rw [List.filterMap_filter]
  congr 1
  funext f
  cases f <;> rfl

theorem mem_held {id : ThunkId} : id ∈ c.held ↔ ∃ t pos place, .thunk id t pos place ∈ c.opened := by
  rw [held_eq, List.mem_filterMap]
  constructor
  · rintro ⟨f, hf, hid⟩
    cases f with
    | thunk id t pos place =>
      cases hid
      exact ⟨t, pos, place, hf⟩
    | _ => cases hid
  · rintro ⟨t, pos, place, hf⟩
    exact ⟨_, hf, rfl⟩

theorem getElem?_setThunk_self {h : Heap} {id : ThunkId} {t : Thunk} (ht : h.thunks[id]? = some t)
    (state : ThunkState) : (h.setThunk id state).thunks[id]? = some { t with state } := by
  simp [Heap.setThunk, Array.getElem?_modify, ht]

theorem getElem?_setThunk_ne {id i : ThunkId} (hne : i ≠ id) (h : Heap) (state : ThunkState) :
    (h.setThunk id state).thunks[i]? = h.thunks[i]? := by
  simp [Heap.setThunk, Array.getElem?_modify, Ne.symm hne]

namespace Since

variable {h : Heap}

theorem not_mem_held (hc : Since h c) {id : ThunkId} {t : Thunk}
    (ht : c.state.heap.thunks[id]? = some t) (hp : t.state = .pending) : id ∉ c.held := by
  intro hid
  obtain ⟨t', pos, place, hm⟩ := mem_held.mp hid
  obtain ⟨-, hforcing, -⟩ := hc.entered _ _ _ _ hm
  rw [ht] at hforcing
  cases hforcing
  cases hp

theorem adds (hc : Since h c) (hopen : ∀ id t pos place,
      .thunk id t pos place ∈ d.opened → .thunk id t pos place ∈ c.opened)
    (hheld : d.held = c.held) (ha : c.state.heap.Adds d.state.heap) : Since h d where
  entered id t pos place hm := by
    obtain ⟨hp, ht, hh⟩ := hc.entered id t pos place (hopen _ _ _ _ hm)
    exact ⟨hp, ha.old _ _ ht, hh⟩
  once := by
    rw [hheld]
    exact hc.once
  old id t hid ht := by
    rw [hheld] at hid
    rcases hc.old id t hid ht with ht' | ⟨hp, v, hv, hrest⟩
    · exact .inl (ha.old _ _ ht')
    · exact .inr ⟨hp, v, ha.old _ _ hv, hrest⟩
  new id t hid ht hf := by
    rw [hheld] at hid
    rcases ha.new id t ht with ht | hp
    · exact hc.new id t hid ht hf
    · rw [hp] at hf
      cases hf

theorem into (hc : Since h c) {id : ThunkId} {t : Thunk} {pos : Pos} {place : Place}
    (hopen : d.opened = .thunk id t pos place :: c.opened)
    (ht : c.state.heap.thunks[id]? = some t) (hp : t.state = .pending)
    (hheap : d.state.heap.thunks = (c.state.heap.setThunk id .forcing).thunks) : Since h d := by
  have hnot := hc.not_mem_held ht hp
  have hheld : d.held = id :: c.held := by simp [held_eq, hopen, Frame.thunk?]
  -- whatever is not the thunk itself is as before
  have helse : ∀ i, i ≠ id → d.state.heap.thunks[i]? = c.state.heap.thunks[i]? := fun i hi => by
    rw [hheap, getElem?_setThunk_ne hi]
  refine ⟨fun i u q r hm => ?_, ?_, fun i u hi hu => ?_, fun i u hi hu hf => ?_⟩
  · rw [hopen] at hm
    rcases List.mem_cons.mp hm with he | hmem
    · cases he
      refine ⟨hp, by rw [hheap, getElem?_setThunk_self ht], fun t' ht' => ?_⟩
      rcases hc.old _ t' hnot ht' with h₁ | ⟨_, v, h₁, _⟩
      · exact Option.some.inj (h₁.symm.trans ht)
      · rw [ht] at h₁
        cases h₁
        cases hp
    · have hi : i ≠ id := by
        rintro rfl
        exact hnot (mem_held.mpr ⟨u, q, r, hmem⟩)
      rw [helse i hi]
      exact hc.entered i u q r hmem
  · rw [hheld]
    exact List.nodup_cons.mpr ⟨hnot, hc.once⟩
  · rw [hheld, List.mem_cons, not_or] at hi
    unfold Heap.Evaluates
    rw [helse i hi.1]
    exact hc.old i u hi.2 hu
  · rw [hheld, List.mem_cons, not_or] at hi
    rw [helse i hi.1] at hu
    exact hc.new i u hi.2 hu hf

theorem out (hc : Since h c) {id : ThunkId} {t : Thunk} {pos : Pos} {place : Place}
    {state : ThunkState} (hopen : c.opened = .thunk id t pos place :: d.opened)
    (hheap : d.state.heap.thunks = (c.state.heap.setThunk id state).thunks)
    (hstate : state = .pending ∨ ∃ v, state = .done v ∧ (∀ i, v ≠ .thunk i) ∧ t.Accepts v) :
    Since h d := by
  have hheld : c.held = id :: d.held := by simp [held_eq, hopen, Frame.thunk?]
  have honce := hc.once
  rw [hheld, List.nodup_cons] at honce
  obtain ⟨hp, ht, hh⟩ := hc.entered id t pos place (hopen ▸ List.mem_cons_self)
  have hself : d.state.heap.thunks[id]? = some { t with state } := by
    rw [hheap, getElem?_setThunk_self ht]
  have helse : ∀ i, i ≠ id → d.state.heap.thunks[i]? = c.state.heap.thunks[i]? := fun i hi => by
    rw [hheap, getElem?_setThunk_ne hi]
  have hout : ∀ i, i ≠ id → i ∉ d.held → i ∉ c.held := fun i hi hd => by
    rw [hheld, List.mem_cons, not_or]
    exact ⟨hi, hd⟩
  refine ⟨fun i u q r hm => ?_, honce.2, fun i u hi hu => ?_, fun i u hi hu hf => ?_⟩
  · have hi : i ≠ id := by
      rintro rfl
      exact honce.1 (mem_held.mpr ⟨u, q, r, hm⟩)
    rw [helse i hi]
    exact hc.entered i u q r (hopen ▸ List.mem_cons_of_mem _ hm)
  · by_cases he : i = id
    · subst he
      obtain rfl := hh u hu
      rw [hself]
      rcases hstate with rfl | ⟨v, rfl, hv, hacc⟩
      · left
        rw [← hp]
      · exact .inr ⟨hp, v, hself, hv, hacc⟩
    · unfold Heap.Evaluates
      rw [helse i he]
      exact hc.old i u (hout i he hi) hu
  · by_cases he : i = id
    · subst he
      rw [hself] at hu
      cases hu
      rcases hstate with rfl | ⟨v, rfl, -⟩ <;> cases hf
    · rw [helse i he] at hu
      exact hc.new i u (hout i he hi) hu hf

theorem shift (hc : Since h c) (hs : Shift c d)
    (hv : ∀ v, c.control = .give (.ok v) → c.frames ≠ [] → ∀ i, v ≠ .thunk i) : Since h d := by
  cases hs with
  | stay hopen _ hheap =>
    exact hc.adds (by simp [hopen]) (by rw [held_eq, hopen, held_eq]) hheap
  | call hopen hheap =>
    exact hc.adds (by simp [hopen]) (by rw [held_eq, held_eq, hopen]; rfl) (.of_eq hheap)
  | back hopen _ hheap =>
    refine hc.adds (fun _ _ _ _ hm => hopen ▸ List.mem_cons_of_mem _ hm) ?_ (.of_eq hheap)
    rw [held_eq, held_eq, hopen]
    rfl
  | into hopen ht hpending hheap => exact hc.into hopen ht hpending hheap
  | out hframes _ hheap hstate =>
    refine hc.out (opened_of_cons hframes rfl) hheap (hstate.imp_right ?_)
    rintro ⟨v, hcontrol, hdone, hacc⟩
    exact ⟨v, hdone, hv v hcontrol (by simp [hframes]), hacc⟩

theorem forcing_iff (hc : Since h c) (hheld : c.held = []) (id : ThunkId) :
    c.state.heap.Forcing id ↔ h.Forcing id := by
  have hid : id ∉ c.held := by simp [hheld]
  constructor
  · rintro ⟨t, ht, hf⟩
    exact ⟨t, hc.new id t hid ht hf, hf⟩
  · rintro ⟨t, ht, hf⟩
    rcases hc.old id t hid ht with ht' | ⟨hp, -⟩
    · exact ⟨t, ht', hf⟩
    · rw [hp] at hf
      cases hf

end Since

end Machine

/-! ## Tasks -/

namespace Task

open Machine

theorem since_start (t : Task) (depth : Nat) (s : EvalState) :
    Since s.heap (t.start depth [] s) ∧ (t.start depth [] s).home = s.place := by
  have hidle (control : Control) : Since s.heap ⟨control, [], s⟩ :=
    ⟨fun _ _ _ _ hm => (List.not_mem_nil hm).elim, List.nodup_nil, fun _ _ _ ht => .inl ht,
      fun _ _ _ ht _ => ht⟩
  cases t with
  | eval e scope => exact ⟨hidle _, rfl⟩
  | apply pos fn args => exact ⟨hidle _, rfl⟩
  | force v =>
    have hshift := shift_demand (.give (.ok v)) depth v [] s
    exact ⟨(hidle _).shift hshift fun _ _ hnil => absurd rfl hnil, home_shift hshift⟩

/-- **Evaluation restores its state and frames the heap.** Whatever a task comes to, a value or an
error, its result goes to the frames that waited for it, which are unchanged and so are the depths
they go on with. The source and the trace are as before, and of the objects in the heap only pending
thunks have changed, by getting their values. -/
theorem restores {set : Setting} {s : EvalState} {t : Task} (hlib : set.host.MakesNoThunks)
    (hs : s.heap.Proper) (ht : t.Admitted s.heap) (depth : Nat) (frames : List Frame) :
    Reaches set (t.start depth frames s)
        ⟨.give (t.run set depth s).1, frames, (t.run set depth s).2⟩ ∧
      (t.run set depth s).2.place = s.place ∧ s.heap.Advances (t.run set depth s).2.heap := by
  refine ⟨reaches_run set t depth frames s, ?_⟩
  obtain ⟨hsince, hhome⟩ := t.since_start depth s
  obtain ⟨-, hsince, hhome⟩ := run_keeps
    (P := fun c => c.Tame ∧ Since s.heap c ∧ c.home = s.place)
    (fun c d ⟨htame, hsince, hhome⟩ hn => ⟨tame_next hlib htame hn,
      hsince.shift (shift_next hn) fun v hv hf => htame.ne_thunk hv hf,
      (home_shift (shift_next hn)).trans hhome⟩)
    (t.start depth [] s) ⟨tame_start hs ht depth, hsince, hhome⟩
  have hgrows : s.heap.Grows Heap.anyThunk (t.run set depth s).2.heap := by
    refine .trans ?_ (grows_run set (t.start depth [] s))
    cases t with
    | force v => exact grows_demand (.refl _ _) fun _ _ => trivial
    | _ => exact .refl _ _
  exact ⟨hhome, hgrows.scopes, hgrows.cells,
    fun id u hu => hsince.old id u List.not_mem_nil hu, hsince.forcing_iff rfl⟩

/-- `x` is pending, `y` is being evaluated, and there is a cell. -/
def halfway : EvalState where
  heap :=
    { thunks := #[
        ⟨"x", some (.binary ⟨1, 7⟩ .add (.int ⟨1, 5⟩ 1) (.int ⟨1, 9⟩ 2), 0), "m", some .int, .pending⟩,
        ⟨"y", some (.var ⟨2, 5⟩ "x", 0), "m", none, .forcing⟩]
      cells := #[some (.int 7)]
      scopes := #[⟨[("x", .thunk 0), ("y", .thunk 1)], none⟩] }
  patience := .endless
  place := ⟨"m", ["y"]⟩

theorem proper_halfway : halfway.heap.Proper where
  thunks id t v ht hv := by
    rcases id with _ | _ | id
    · cases ht; cases hv
    · cases ht; cases hv
    · cases ht
  cells id v hv := by
    rcases id with _ | id
    · cases hv; exact .atom rfl
    · cases hv
  scopes id sc x v hs hx := by
    rcases id with _ | id
    · cases hs
      rcases Table.mem_of_get? hx with _ | ⟨_, _ | ⟨_, ⟨⟩⟩⟩
      · exact .inr ⟨0, rfl, by decide⟩
      · exact .inr ⟨1, rfl, by decide⟩
    · cases hs

/-- In `x + y`, the value of `x` is found and then `y` turns out to be a loop. -/
theorem restores_halfway :
    let sum : Task := .eval (.binary ⟨3, 3⟩ .add (.var ⟨3, 1⟩ "x") (.var ⟨3, 5⟩ "y")) 0
    let set : Setting := ⟨.empty, 10⟩
    set.host.MakesNoThunks ∧ halfway.heap.Proper ∧ sum.Admitted halfway.heap ∧
    (Reaches set (sum.start 10 [.negate ⟨3, 0⟩] halfway)
        ⟨.give (sum.run set 10 halfway).1, [.negate ⟨3, 0⟩], (sum.run set 10 halfway).2⟩ ∧
      (sum.run set 10 halfway).2.place = halfway.place ∧
      halfway.heap.Advances (sum.run set 10 halfway).2.heap) ∧
    (sum.run set 10 halfway).1.toBool = false ∧
    ((sum.run set 10 halfway).2.heap.thunkValue? 0).bind Value.int? = some 3 := by
  intro sum set
  have hlib : set.host.MakesNoThunks := HostLibrary.makesNoThunks_empty
  have hsum : sum.Admitted halfway.heap := trivial
  exact ⟨hlib, proper_halfway, hsum, restores hlib proper_halfway hsum 10 [.negate ⟨3, 0⟩],
    by decide +kernel, by decide +kernel⟩

end Task

end LazySession
