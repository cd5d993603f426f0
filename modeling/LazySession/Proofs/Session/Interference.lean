import LazySession.Proofs.Session.RoundTrip

/-!
# Bindings leave each other alone

`Session.Bindings.value_undisturbed`: a bound name has the same value before and after another name
is bound, as long as no name stands in the way of what is generated for another one.
-/

namespace LazySession

/-! ## Thunks keep their values -/

/-- Thunks that have been evaluated keep their values. -/
structure Heap.Remembers (h h' : Heap) : Prop where
  value : ∀ id v, h.thunkValue? id = some v → h'.thunkValue? id = some v
  size : h.thunks.size ≤ h'.thunks.size

theorem Heap.Remembers.refl (h : Heap) : h.Remembers h := ⟨fun _ _ hv => hv, Nat.le_refl _⟩

theorem Heap.Remembers.trans {h h' h'' : Heap} (r : h.Remembers h') (r' : h'.Remembers h'') :
    h.Remembers h'' :=
  ⟨fun id v hv => r'.value id v (r.value id v hv), Nat.le_trans r.size r'.size⟩

theorem Heap.Remembers.toHost {h h' : Heap} (r : h.Remembers h') {v : Value}
    (hv : ∀ id, h.toHost v ≠ .object (.thunk id)) : h'.toHost v = h.toHost v := by
  have step : ∀ (n m : Nat) (v : Value), n ≤ m → (∀ id, h.toHostFrom n v ≠ .object (.thunk id)) →
      h'.toHostFrom m v = h.toHostFrom n v := by
    intro n
    induction n with
    | zero =>
      intro m v _ hv
      cases v with
      | thunk id => exact absurd rfl (hv id)
      | _ => cases m <;> rfl
    | succ n ih =>
      intro m v hle hv
      obtain ⟨m, rfl⟩ : ∃ k, m = k + 1 := ⟨m - 1, by omega⟩
      cases v with
      | thunk id =>
        unfold Heap.toHostFrom at hv ⊢
        cases hvalue : h.thunkValue? id with
        | none =>
          rw [hvalue] at hv
          exact absurd rfl (hv id)
        | some u =>
          rw [hvalue] at hv
          rw [r.value id u hvalue]
          exact ih m u (by omega) hv
      | _ => rfl
  exact step _ _ v r.size hv

theorem Loader.kept_remembers (set : Setting) : Kept set fun w w' => w.heap.Remembers w'.heap := by
  have hsettles := kept_settles set
  refine ⟨⟨fun w => .refl _, .trans, fun w _ _ => .refl _, fun w => ?_, fun w _ _ _ _ => ?_,
    fun w _ _ => ?_, fun w _ _ => ?_⟩, fun w _ _ => .refl _⟩
  · exact ⟨(hsettles.scope w).thunks, Nat.le_refl _⟩
  · exact ⟨(hsettles.imports w _ _ _ _).thunks, by rw [(thunks_importFields _ _ _ _ w.heap).1]⟩
  · exact ⟨(hsettles.define w _ _).thunks, (defined_defineAll _ _ w.heap).fills.thunks_size⟩
  · exact ⟨(hsettles.force w _ _).thunks,
      ((EvalState.grows_force set (Act.start _ w) _).fills []).thunks_size⟩

namespace Session

open Interpreter
open Loader (Holding)

variable {ip : Interpreter} {s : Session} {w : World}

theorem serves_remembers (ip : Interpreter) (l : Loader) :
    Serves ip.workshop l fun w w' => w.heap.Remembers w'.heap where
  refl w := .refl _
  trans := .trans
  load := (Loader.kept_remembers ip.setting).load l
  read := (Loader.kept_remembers ip.setting).read
  write i field v w := by
    unfold Instance.write
    split
    · exact Act.meets_throw (.refl _)
    · refine Act.meets_get_bind ?_
      split
      · exact Act.meets_set ⟨fun _ _ hv => hv, Nat.le_refl _⟩
      · exact Act.meets_throw (.refl _)

theorem heap_reads {w w' : World} (h : Reads w w') : w'.heap = w.heap := by
  obtain ⟨_, _, _, _, rfl⟩ := h
  rfl

theorem heap_extend {l : Loader} (hk : l.Keyed w) (mods : List ModuleCode) :
    (l.extend mods w).2.heap = w.heap := by
  obtain ⟨_, _, r, -⟩ := Loader.renews_extend hk mods
  rw [r.world]

theorem remembers_evaluate (ip : Interpreter) (h : Tended s w) (text : String) :
    (evaluate ip.workshop s text).Meets w (fun _ w' => w.heap.Remembers w'.heap)
      (fun _ w' => w.heap.Remembers w'.heap) := by
  have hsame : ∀ {w' : World}, w'.heap = w.heap → w.heap.Remembers w'.heap := by
    intro w' he
    rw [he]
    exact .refl _
  obtain ⟨w₁, hr₁, hrun⟩ := run_interpret h.sane.faithful text
  have h₁ := h.reads hr₁
  have hheap₁ := heap_reads hr₁
  refine Act.meets_bind (Act.meets_of_run hrun (Act.meets_bind (meets_lock ?_ (hsame hheap₁))))
  refine Act.meets_bind (Act.meets_during ((ran_run ip text s.history s.loader
    hr₁.faithful).mono (fun r w₂ hran => ?_) fun _ _ h' => hsame ((heap_reads h'.2.1).trans hheap₁)))
  have hextend : ∀ {w₂ : World}, Reads w₁ w₂ → ∀ mods,
      (s.loader.extend mods w₂).2.heap = w.heap := fun hr mods =>
    (heap_extend (h₁.reads hr).keyed mods).trans ((heap_reads hr).trans hheap₁)
  cases hran with
  | rejected hr => exact Act.meets_throw (hsame ((heap_reads hr).trans hheap₁))
  | definitions _ _ hr _ => exact Act.meets_pure (hsame (hextend hr _))
  | module _ hr _ => exact Act.meets_pure (hsame (hextend hr _))
  | expression _ _ hr _ =>
    refine Act.meets_bind (((serves_remembers ip _).readSymbol s _ _).mono (fun _ _ h' => ?_)
      fun _ _ h' => (hsame (hextend hr _)).trans h')
    exact Act.meets_pure ((hsame (hextend hr _)).trans h')

theorem heap_rebinds {s' : Session} {w' : World} {k : BindKey} {v : HostValue} (h : Tended s w)
    (hb : Rebinds k v s w s' w') : w'.heap = w.heap := by
  obtain ⟨-, -, hr, -⟩ := hb
  exact (heap_extend (h.reads hr).keyed _).trans (heap_reads hr)

end Session

/-- The value that a text has at a moment, if it has one and nobody calls the work off. -/
def Moment.value? (ip : Interpreter) (m : Moment) (text : String) : Option HostValue :=
  ((Session.evaluate ip.workshop m.session text).run
    { m.world with context := {} }).1.toOption.map (·.1)

namespace Session

open Interpreter Template

section
variable {ip : Interpreter} {cache : Cache Parsed} {calls : List (BindKey × HostValue)} {m : Moment}

/-- What evaluating a bound name gives, and what it leaves behind. -/
theorem Bindings.value_cases (hc : Faithful cache) (h : Bindings ip cache calls m)
    (hh : HygienicCalls calls) {x type : String} {v : HostValue}
    (ht : firstType calls x = some type) (hv : lastValue calls x = some v) :
    ∃ w, m.after ip {} (.evaluate x) = ⟨m.session, w⟩ ∧ m.world.heap.Remembers w.heap ∧
      ((3 ≤ ip.setting.limit ∧ Conforms type v.toValue) ∧
          m.value? ip x = some (w.heap.toHost v.toValue) ∨
        ¬ (3 ≤ ip.setting.limit ∧ Conforms type v.toValue) ∧ m.value? ip x = none) := by
  have hmeets := (h.meets_evaluate hc hh ht hv).and
    (remembers_evaluate ip ((h.tended hc).1.context {}) x)
  unfold Act.Meets at hmeets
  unfold Moment.value? Moment.after
  simp only [Request.act, Act.run_bind]
  generalize (evaluate ip.workshop m.session x).run { m.world with context := {} } = p at hmeets ⊢
  obtain ⟨r, w⟩ := p
  cases r with
  | ok r =>
    obtain ⟨⟨hconf, rfl⟩, hrem⟩ := hmeets
    exact ⟨w, rfl, hrem, .inl ⟨hconf, rfl⟩⟩
  | error e =>
    obtain ⟨⟨hwhy, -⟩, hrem⟩ := hmeets
    exact ⟨w, rfl, hrem, .inr ⟨fun hconf => hwhy.elim (by omega) fun hn => hn hconf.2, rfl⟩⟩

theorem bound_of_mem {x : String} (hx : x ∈ calls.map (·.1.name)) :
    ∃ type v, firstType calls x = some type ∧ lastValue calls x = some v := by
  obtain ⟨c, hc, rfl⟩ := List.mem_map.mp hx
  have hfirst : (calls.find? (·.1.name == c.1.name)).isSome :=
    List.find?_isSome.mpr ⟨c, hc, by simp⟩
  have hlast : (calls.reverse.find? (·.1.name == c.1.name)).isSome :=
    List.find?_isSome.mpr ⟨c, List.mem_reverse.mpr hc, by simp⟩
  obtain ⟨d, hd⟩ := Option.isSome_iff_exists.mp hfirst
  obtain ⟨e, he⟩ := Option.isSome_iff_exists.mp hlast
  exact ⟨d.1.type, e.2, by rw [firstType, hd]; rfl, by rw [lastValue, he]; rfl⟩

theorem HygienicCalls.left {more : List (BindKey × HostValue)} (h : HygienicCalls (calls ++ more)) :
    HygienicCalls calls where
  ident c hc := h.ident c (List.mem_append_left _ hc)
  free c hc := h.free c (List.mem_append_left _ hc)
  apart c hc d hd := h.apart c (List.mem_append_left _ hc) d (List.mem_append_left _ hd)
  typed c hc := h.typed c (List.mem_append_left _ hc)

theorem Bindings.heap_bind (hc : Faithful cache) (h : Bindings ip cache calls m) {context : Context}
    {key : String} {v : HostValue} (hb : m.succeeds ip context (.bind key v) = true) :
    (m.after ip context (.bind key v)).world.heap = m.world.heap := by
  have ht := (h.tended hc).1
  obtain ⟨k, -, hreb⟩ := Moment.rebinds_of_succeeds ht hb
  exact (heap_rebinds (ht.context context) hreb).trans rfl

theorem HygienicCalls.spares (hc : Faithful cache) (h : Bindings ip cache calls m)
    (hh : HygienicCalls calls) {x : String} (hx : x ∈ calls.map (·.1.name)) : Spares x := by
  obtain ⟨htended, hmade⟩ := h.tended hc
  obtain ⟨type, v, -, hv⟩ := bound_of_mem hx
  obtain ⟨c, hcalls, rfl⟩ := List.mem_map.mp hx
  have hvalue := hmade.value c.1.name
  rw [hv] at hvalue
  obtain ⟨b, hb, -⟩ := Option.map_eq_some_iff.mp hvalue
  have hword := word_of_isBindName (htended.names _ (List.mem_map_of_mem (Table.mem_of_get? hb)))
  obtain ⟨p, hread⟩ := read_name hword (hh.ident c hcalls) fragmentSource
  intro module hm
  rw [hread] at hm
  cases hm

/-- Evaluating a bound name, binding another one and evaluating the name again gives the same twice,
unless the names get in each other's way. -/
theorem Bindings.value_undisturbed (hc : Faithful cache) (h : Bindings ip cache calls m)
    {key : String} {k : BindKey} (hk : BindKey.ofText key = .ok k) {v : HostValue}
    (hh : HygienicCalls (calls ++ [(k, v)])) {x : String} (hx : x ∈ calls.map (·.1.name))
    (hne : x ≠ k.name) (hvalue : ∀ id, m.value? ip x ≠ some (.object (.thunk id)))
    {context : Context}
    (hb : (m.after ip {} (.evaluate x)).succeeds ip context (.bind key v) = true) :
    ((m.after ip {} (.evaluate x)).after ip context (.bind key v)).value? ip x =
      m.value? ip x := by
  have hh₀ : HygienicCalls calls := hh.left
  obtain ⟨type, u, htype, hlast⟩ := bound_of_mem hx
  obtain ⟨w, hafter, -, hcases⟩ := h.value_cases hc hh₀ htype hlast
  have h₁ : Bindings ip cache calls (m.after ip {} (.evaluate x)) :=
    h.other (hh₀.spares hc h hx) (by rw [hafter])
  have h₂ := h₁.bind context key hk hb
  have htype' : firstType (calls ++ [(k, v)]) x = some type := by
    rw [firstType_snoc, htype, Option.some_or]
  have hlast' : lastValue (calls ++ [(k, v)]) x = some u := by
    rw [lastValue_snoc, if_neg hne.symm, hlast]
  obtain ⟨w', -, hrem, hcases'⟩ := h₂.value_cases hc hh htype' hlast'
  rw [h₁.heap_bind hc hb, hafter] at hrem
  rcases hcases with ⟨hconf, hval⟩ | ⟨hconf, hval⟩
  · rcases hcases' with ⟨-, hval'⟩ | ⟨hconf', -⟩
    · have hthunk : ∀ id, w.heap.toHost u.toValue ≠ .object (.thunk id) := fun id he =>
        hvalue id (hval.trans (congrArg some he))
      rw [hval', hval, hrem.toHost hthunk]
    · exact absurd hconf hconf'
  · rcases hcases' with ⟨hconf', -⟩ | ⟨-, hval'⟩
    · exact absurd hconf' hconf
    · rw [hval', hval]

/-- A second name is bound. -/
theorem value_undisturbed_second : ∃ calls m, Bindings plain .disabled calls m ∧
    m.value? plain "x" = some (.data (.ofInt 1)) ∧
    ((m.after plain {} (.evaluate "x")).after plain {} (.bind "y" (.data (.ofInt 2)))).value? plain
      "x" = m.value? plain "x" := by
  have hh : HygienicCalls [(⟨"x", none⟩, .data (.ofInt 1)), (⟨"y", none⟩, .data (.ofInt 2))] := by
    refine ⟨?_, ?_, ?_, ?_⟩
    all_goals simp only [List.mem_cons, List.not_mem_nil, or_false, forall_eq_or_imp, forall_eq]
    · decide
    · decide
    · decide
    · exact ⟨by rintro _ ⟨⟩, by rintro _ ⟨⟩⟩
  obtain ⟨m, h, hb⟩ : ∃ m, Bindings plain .disabled [(⟨"x", none⟩, .data (.ofInt 1))] m ∧
      (m.after plain {} (.evaluate "x")).succeeds plain {} (.bind "y" (.data (.ofInt 2))) = true :=
    ⟨_, .bind .start {} "x" (by cbv) (by decide +kernel), by decide +kernel⟩
  have hconf : Conforms (BindKey.type ⟨"x", none⟩) (HostValue.data (.ofInt 1)).toValue := by
    have hbase : ((TypeExpr.ofText? (BindKey.type ⟨"x", none⟩)).bind TypeExpr.base?) = none := by
      decide +kernel
    intro t want ht hwant
    rw [ht, Option.bind_some, hwant] at hbase
    cases hbase
  have hvalue : m.value? plain "x" = some (.data (.ofInt 1)) := by
    obtain ⟨w, -, -, hcases⟩ := h.value_cases (faithful_empty rfl)
      (@HygienicCalls.left [_] [_] hh) (x := "x") rfl rfl
    rcases hcases with ⟨-, hval⟩ | ⟨hn, -⟩
    · rw [hval, toHost_toValue fun u => HostValue.noConfusion]
    · exact absurd ⟨by decide, hconf⟩ hn
  refine ⟨_, m, h, hvalue, Bindings.value_undisturbed (faithful_empty rfl) h (by cbv) hh (by simp)
    (by decide) (fun id => ?_) hb⟩
  rw [hvalue]
  rintro ⟨⟩

end

end Session

end LazySession
