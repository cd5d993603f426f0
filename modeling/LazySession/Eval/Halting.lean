import LazySession.Eval.Machine

/-!
# The machine comes to an end

`Machine.accessible`: from no configuration there is an endless run, whatever the heap and the
frames hold. The depth left bounds the nesting, and each round of an application uses up an
argument or calls a function of the host that takes none.
-/

namespace LazySession

/-! ## Applications use up their arguments -/

namespace Value

/-- A function waits for at least one argument, unless it is one of the host's without
parameters. -/
theorem callable?_lt {v : Value} {f : Callable} {before : List Value}
    (h : v.callable? = some (f, before)) :
    before.length < f.arity ∨ ∃ d, v = .host d ∧ d.arity? = some 0 ∧ f = .host d ∧ before = [] := by
  cases v with
  | closure c => cases h; exact .inl (Nat.succ_pos _)
  | builtin b => cases h; exact .inl (by cases b <;> decide)
  | partialApp fn args =>
    simp only [callable?] at h
    split at h
    · cases h; exact .inl ‹_›
    · cases h
  | host d =>
    simp only [callable?] at h
    split at h
    · rename_i hsome
      obtain ⟨n, hn⟩ := Option.isSome_iff_exists.mp hsome
      cases h
      cases n with
      | zero => exact .inr ⟨d, rfl, hn, rfl, rfl⟩
      | succ n => exact .inl (by simp [Callable.arity, hn])
    · cases h
  | _ => cases h

end Value

theorem HostData.givenBy_call {lib : HostLibrary} {h : Heap} {d : HostData} {v : Value}
    (ha : d.arity? = some 0) (hc : d.call lib h [] = .ok v) :
    v.GivenBy lib.call (.host d) := by
  obtain ⟨type, content⟩ := d
  unfold arity? at ha
  split at ha
  · rename_i ps variadic rs name held htype hcontent
    simp only at htype hcontent
    subst hcontent
    obtain rfl : ps = [] := by simpa using ha
    cases variadic with
    | true => simp [call, htype] at hc
    | false =>
      simp only [call, htype, arguments] at hc
      cases hl : lib.call name held [] with
      | error text => simp [hl] at hc
      | ok vs =>
        refine ⟨type, false, rs, name, held, vs, rfl, htype, hl, ?_⟩
        rw [hl] at hc
        match vs, hc with
        | [], hc => exact .inl ⟨rfl, by simpa using hc.symm⟩
        | [r], hc => exact .inr ⟨r, rfl, by simpa using hc.symm⟩
        | _ :: _ :: _, hc => simp at hc
  · cases ha

namespace Applied

/-- An application to fewer arguments, or to as many of what a function without parameters gave. -/
def Lighter (lib : HostLibrary) (v : Value) (others : List Value) (fn : Value)
    (args : List Value) : Prop :=
  others.length < args.length ∨ others = args ∧ v.GivenBy lib.call fn

theorem induction (lib : HostLibrary) {P : Value → List Value → Prop}
    (step : ∀ fn args, (∀ v others, Lighter lib v others fn args → P v others) → P fn args) :
    ∀ fn args, P fn args := by
  have main : ∀ (n : Nat) (fn : Value) (args : List Value), args.length = n → P fn args := by
    intro n
    induction n using Nat.strongRecOn with
    | _ n ih =>
      intro fn
      induction fn using lib.nullary.induction with
      | _ fn ihfn =>
        intro args hn
        apply step
        rintro v others (hlt | ⟨rfl, hv⟩)
        · exact ih _ (hn ▸ hlt) v others rfl
        · exact ihfn v hv others hn
  exact fun fn args => main _ fn args rfl

theorem again_of_give {v w : Value} {others rest : List Value}
    (h : give v others = .again w rest) : w = v ∧ rest = others := by
  cases others with
  | nil => cases h
  | cons a as => cases h; exact ⟨rfl, rfl⟩

section
variable {lib : HostLibrary} {pos : Pos} {s : EvalState} {fn : Value} {args rest : List Value}

theorem enter_of_call {f : Callable} {others : List Value} {c : Closure} {scope : ScopeId}
    (h : (call lib pos f args others s).1 = .enter c scope rest) : rest = others := by
  cases f with
  | closure c =>
    simp only [call] at h
    split at h <;> cases h
    rfl
  | builtin b =>
    simp only [call] at h
    split at h
    · cases h
    · cases others <;> cases h
  | host d =>
    simp only [call] at h
    split at h
    · cases h
    · cases others <;> cases h

theorem again_of_call {f : Callable} {others : List Value} {v : Value}
    (h : (call lib pos f args others s).1 = .again v rest) :
    rest = others ∧ ∀ d, f = .host d → d.call lib s.heap args = .ok v := by
  cases f with
  | closure c =>
    simp only [call] at h
    split at h <;> cases h
  | builtin b =>
    simp only [call] at h
    split at h
    · cases h
    · exact ⟨(again_of_give h).2, nofun⟩
  | host d =>
    simp only [call] at h
    split at h
    · cases h
    · rename_i w hc
      obtain ⟨rfl, rfl⟩ := again_of_give h
      exact ⟨rfl, fun _ hd => by cases hd; exact hc⟩

/-- A round ends at once or comes to a call with all the arguments that the function takes. -/
theorem round_cases (lib : HostLibrary) (pos : Pos) (fn : Value) (args : List Value)
    (s : EvalState) :
    (∃ r, round lib pos fn args s = (.done r, s)) ∨
    ∃ f before, fn.callable? = some (f, before) ∧ f.arity ≤ (before ++ args).length ∧
      round lib pos fn args s =
        call lib pos f ((before ++ args).take f.arity) ((before ++ args).drop f.arity) s := by
  unfold round
  cases fn.callable? with
  | none => exact .inl ⟨_, rfl⟩
  | some p =>
    obtain ⟨f, before⟩ := p
    simp only
    split
    · exact .inl ⟨_, rfl⟩
    · rename_i hlen
      exact .inr ⟨f, before, rfl, Nat.le_of_not_lt hlen, rfl⟩

theorem lighter_enter {c : Closure} {scope : ScopeId}
    (h : (round lib pos fn args s).1 = .enter c scope rest) : rest.length < args.length := by
  obtain ⟨r, hr⟩ | ⟨f, before, hf, hlen, hr⟩ := round_cases lib pos fn args s
  · rw [hr] at h
    cases h
  rw [hr] at h
  obtain rfl := enter_of_call h
  rcases Value.callable?_lt hf with hlt | ⟨d, -, -, rfl, -⟩
  · simp only [List.length_append, List.length_drop] at hlen ⊢
    omega
  · -- functions of the host have no body
    simp only [call] at h
    split at h
    · cases h
    · generalize List.drop _ _ = others at h
      cases others <;> cases h

theorem lighter_again {v : Value} (h : (round lib pos fn args s).1 = .again v rest) :
    Lighter lib v rest fn args := by
  obtain ⟨r, hr⟩ | ⟨f, before, hf, hlen, hr⟩ := round_cases lib pos fn args s
  · rw [hr] at h
    cases h
  rw [hr] at h
  obtain ⟨rfl, hd⟩ := again_of_call h
  rcases Value.callable?_lt hf with hlt | ⟨d, rfl, ha, rfl, rfl⟩
  · simp only [Lighter, List.length_append, List.length_drop] at hlen ⊢
    omega
  · have hcall := hd d rfl
    simp only [Callable.arity, ha, Option.getD_some, List.take_zero] at hcall
    exact .inr ⟨by simp [Callable.arity, ha], HostData.givenBy_call ha hcall⟩

end

end Applied

/-! ## Runs -/

/-- The depth left for what a frame evaluates next. -/
def Frame.depth : Frame → Nat
  | .function depth .. | .argument depth .. | .left depth .. | .right depth .. | .test depth ..
  | .body depth .. => depth
  | .negate .. | .thunk .. => 0

namespace Machine

variable (set : Setting)

/-- The configuration `c'` comes right after `c`. -/
def After (c' c : Machine) : Prop := c.next set = .going c'

/-- Whatever is handed to the frames, the run from there ends. -/
def Settles (frames : List Frame) : Prop :=
  ∀ r s, Acc (After set) ⟨.give r, frames, s⟩

/-- Evaluation with the depth left ends wherever the frames settle. -/
def Ends (depth : Nat) : Prop :=
  ∀ e scope frames s, Settles set frames → Acc (After set) ⟨.eval depth e scope, frames, s⟩

variable {set}

theorem acc_of_going {c c' : Machine} (h : c.next set = .going c') (ha : Acc (After set) c') :
    Acc (After set) c := by
  refine ⟨_, fun d hd => ?_⟩
  rw [After, h] at hd
  cases hd
  exact ha

theorem settles_nil : Settles set [] := fun _ _ => ⟨_, fun _ h => by cases h⟩

theorem settles_cons {f : Frame} {frames : List Frame}
    (hv : ∀ v s, Acc (After set) (resume f v frames s))
    (he : ∀ e s, Acc (After set) (unwind f e frames s)) : Settles set (f :: frames) := by
  intro r s
  cases r with
  | ok v => exact acc_of_going rfl (hv v s)
  | error e => exact acc_of_going rfl (he e s)

theorem acc_unwind {f : Frame} {frames : List Frame} (h : Settles set frames) (e : RuntimeError)
    (s : EvalState) : Acc (After set) (unwind f e frames s) := by
  cases f <;> exact h _ _

theorem next_eval (depth : Nat) (e : Expr) (scope : ScopeId) (frames : List Frame)
    (s : EvalState) :
    next set ⟨.eval depth e scope, frames, s⟩ =
      .going (evaluate set depth e scope frames s) := rfl

theorem next_apply (depth : Nat) (pos : Pos) (fn : Value) (args : List Value)
    (frames : List Frame) (s : EvalState) :
    next set ⟨.apply depth pos fn args, frames, s⟩ =
      .going (applied depth pos (Applied.round set.host pos fn args s).1 frames
        (Applied.round set.host pos fn args s).2) := rfl

theorem acc_apply {depth : Nat} (hd : Ends set depth) {frames : List Frame}
    (h : Settles set frames) (pos : Pos) (fn : Value) (args : List Value) :
    ∀ s : EvalState, Acc (After set) ⟨.apply depth pos fn args, frames, s⟩ := by
  revert fn args
  refine Applied.induction set.host fun fn args ih => ?_
  intro s
  refine acc_of_going (next_apply ..) ?_
  have hagain (v rest) := @Applied.lighter_again set.host pos s fn args rest v
  have henter (c scope rest) := @Applied.lighter_enter set.host pos s fn args rest c scope
  generalize Applied.round set.host pos fn args s = p at hagain henter
  obtain ⟨a, s'⟩ := p
  cases a with
  | done r => exact h _ _
  | enter c scope others =>
    refine hd _ _ _ _ (settles_cons (fun v s => ?_) (acc_unwind h))
    cases others with
    | nil => exact h _ _
    | cons a as => exact ih v _ (.inl (henter _ _ _ rfl)) _
  | again v others => exact ih v others (hagain _ _ rfl) _

theorem acc_arguments {depth : Nat} (hd : Ends set depth) {frames : List Frame}
    (h : Settles set frames) (pos : Pos) (fn : Value) (scope : ScopeId) (after : List Expr) :
    ∀ (before : List Value) (s : EvalState),
      Acc (After set) (arguments depth pos fn before after scope frames s) := by
  induction after with
  | nil => intro before s; exact acc_apply hd h _ _ _ _
  | cons a as ih =>
    intro before s
    exact hd _ _ _ _ (settles_cons (fun v s => ih _ _) (acc_unwind h))

theorem acc_operate {depth : Nat} (hd : Ends set depth) {frames : List Frame}
    (h : Settles set frames) (pos : Pos) (op : Operator) (l r : Value) (s : EvalState) :
    Acc (After set) (operate depth pos op l r frames s) := by
  unfold operate
  split
  · exact acc_apply hd h _ _ _ _
  · split <;> exact h _ _

theorem acc_demand {depth : Nat} (hd : Ends set depth) {frames : List Frame}
    (h : Settles set frames) (v : Value) (s : EvalState) :
    Acc (After set) (demand depth v frames s) := by
  unfold demand
  split
  · exact h _ _
  · exact hd _ _ _ _ (settles_cons (fun _ _ => h _ _) (acc_unwind h))

theorem acc_resume {f : Frame} (hd : Ends set f.depth) {frames : List Frame}
    (h : Settles set frames) (v : Value) (s : EvalState) :
    Acc (After set) (resume f v frames s) := by
  cases f with
  | function depth pos args scope => exact acc_arguments hd h _ _ _ _ _ _
  | argument depth pos fn before after scope => exact acc_arguments hd h _ _ _ _ _ _
  | left depth pos op right scope =>
    have hr : Acc (After set) ⟨.eval depth right scope, .right depth pos op v :: frames, s⟩ :=
      hd _ _ _ _ (settles_cons (fun _ _ => acc_operate hd h _ _ _ _ _) (acc_unwind h))
    simp only [resume]
    split
    · split
      · exact h _ _
      · exact h _ _
      · exact hr
    · exact hr
  | right depth pos op left => exact acc_operate hd h _ _ _ _ _
  | negate pos => simp only [resume]; split <;> exact h _ _
  | test depth pos yes no scope =>
    simp only [resume]
    split
    · exact hd _ _ _ _ h
    · exact h _ _
  | thunk id t pos place => exact h _ _
  | body depth pos place others =>
    cases others with
    | nil => exact h _ _
    | cons a as => exact acc_apply hd h _ _ _ _

theorem settles_frame {f : Frame} (hd : Ends set f.depth) {frames : List Frame}
    (h : Settles set frames) : Settles set (f :: frames) :=
  settles_cons (acc_resume hd h) (acc_unwind h)

theorem acc_node {depth : Nat} (hd : Ends set depth) {frames : List Frame}
    (h : Settles set frames) (e : Expr) (scope : ScopeId) (s : EvalState) :
    Acc (After set) (node depth e scope frames s) := by
  cases e with
  | var p name =>
    simp only [node]
    split
    · exact acc_demand hd h _ _
    · exact h _ _
  | qualified p mod name =>
    simp only [node]
    split
    · exact acc_demand hd h _ _
    · exact h _ _
  | app fn args => exact hd _ _ _ _ (settles_frame (by exact hd) h)
  | binary p op l r => exact hd _ _ _ _ (settles_frame (by exact hd) h)
  | negate p x =>
    refine hd _ _ _ _ (settles_cons (fun v s => ?_) (acc_unwind h))
    simp only [resume]
    split <;> exact h _ _
  | letIn p binds body => exact hd _ _ _ _ h
  | cond p test yes no => exact hd _ _ _ _ (settles_frame (by exact hd) h)
  | _ => exact h _ _

theorem ends (depth : Nat) : Ends set depth := by
  induction depth with
  | zero => exact fun _ _ _ _ h => acc_of_going rfl (h _ _)
  | succ depth ih =>
    intro e scope frames s h
    refine acc_of_going (next_eval ..) ?_
    simp only [evaluate]
    split
    · exact h _ _
    · exact acc_node ih h _ _ _

theorem settles (frames : List Frame) : Settles set frames := by
  induction frames with
  | nil => exact settles_nil
  | cons f frames ih => exact settles_frame (ends _) ih

theorem accessible (c : Machine) : Acc (After set) c := by
  obtain ⟨control, frames, s⟩ := c
  cases control with
  | eval depth e scope => exact ends _ _ _ _ _ (settles frames)
  | apply depth pos fn args => exact acc_apply (ends _) (settles frames) _ _ _ _
  | give r => exact settles frames _ _

/-- A well-founded relation is one, with `2 ^ n` steps in front that can be taken without looking
into the given proof. A run of a concrete program can thus be computed in a proof. -/
theorem layered {α : Type} {r : α → α → Prop} (h : WellFounded r) : (n : Nat) → WellFounded r
  | 0 => h
  | n + 1 => ⟨fun a => .intro a fun b _ => (layered (layered h n) n).apply b⟩

theorem wellFounded (set : Setting) : WellFounded (After set) :=
  layered ⟨accessible⟩ 32

end Machine

end LazySession
