import LazySession.Proofs.Session.Intact
import LazySession.Proofs.Session.Reached

/-!
# The module that bound values are written to

A generator is fitting if its prelude declares the module that it names: `Generator.Fitting`. A session
with such a generator holds that module as soon as something is bound: `Service.Reached.equipped`.
-/

namespace LazySession

/-- Whatever is added to the prelude, it declares no module but the one that is named. -/
def Generator.Fitting (g : Generator) : Prop :=
  ∀ text m, Fragment.ofText Interpreter.fragmentSource (g.prelude ++ text) = .ok (.module m) →
    m.name = g.preludeArtifact

theorem Template.fitting_generator : (generator {}).Fitting := by
  intro text m hm
  obtain ⟨_, _, _, _, _, -, -, -, hm⟩ := read_header (String.toList_append ..) hm
  rw [Fragment.module.inj hm]

theorem Loader.mem_names_extend {l : Loader} {w : World} (hk : l.Keyed w) (mods : List ModuleCode) {n : String}
    (h : n ∈ l.modules.names ∨ n ∈ mods.map (·.name)) : n ∈ (l.extend mods w).1.modules.names := by
  suffices h' : (l.extend mods w).1.code? (l.extend mods w).2 n ≠ none by
    obtain ⟨c, hc⟩ := Option.ne_none_iff_exists'.mp h'
    exact mem_names_of_code? hc
  rw [code?_extend hk]
  intro hnone
  obtain ⟨hamong, hcode⟩ := Option.or_eq_none_iff.mp hnone
  rcases h with h | h
  · obtain ⟨id, hid⟩ := Option.isSome_iff_exists.mp (Table.get?_isSome.mpr h)
    obtain ⟨e, he, -⟩ := hk.get? hid
    simp [code?, hid, he] at hcode
  · rw [ModuleCode.among_eq_none, List.map_reverse, List.mem_reverse] at hamong
    exact hamong h

namespace Session

open Interpreter

/-- The prelude is the generator's with something added, and its module is there if it is needed. -/
structure Equipped (g : Generator) (s : Session) : Prop where
  prelude : ∃ text, s.prelude = g.prelude ++ text
  held : s.bindings = [] ∨ g.preludeArtifact ∈ s.loader.modules.names

variable {ip : Interpreter} {g : Generator} {s : Session} {w : World}

theorem equipped_fresh (g : Generator) : (fresh g).Equipped g where
  prelude := ⟨"", String.append_empty.symm⟩
  held := .inl rfl

theorem Equipped.extend (h : s.Equipped g) (hk : s.loader.Keyed w) (mods : List ModuleCode) :
    Equipped g { s with loader := (s.loader.extend mods w).1 } where
  prelude := h.prelude
  held := h.held.imp_right fun hm => Loader.mem_names_extend hk mods (.inl hm)

theorem equipped_evaluateProgram (ip : Interpreter) (h : s.Equipped g) (hw : Truthful w.cache)
    (hk : s.loader.Keyed w) (text : String) :
    (evaluateProgram ⟨ip.engine, g⟩ s (programOf text)).Meets w (fun r _ => r.2.Equipped g)
      (fun _ _ => True) := by
  refine Act.meets_bind (meets_lock ?_ trivial)
  refine Act.meets_bind (Act.meets_during ((judged_run ip text s.history s.loader hw).mono (fun r w₁ hj => ?_)
    fun _ _ _ => trivial))
  cases hj with
  | rejected _ _ => exact Act.meets_throw trivial
  | @accepted kind mods cache hc hv =>
    cases kind with
    | module name => exact Act.meets_pure (h.extend (w := w.read cache) ⟨hk.nodup, hk.entry⟩ mods)
    | definitions => exact Act.meets_pure ⟨h.prelude, h.held⟩
    | expression sym =>
      refine Act.meets_bind ((Act.meets_run (readSymbol ⟨ip.engine, g⟩ s sym _) _).mono ?_ fun _ _ _ => trivial)
      exact fun _ _ _ => Act.meets_pure h

theorem equipped_evaluate (ip : Interpreter) (h : s.Equipped g) (hw : Truthful w.cache) (hk : s.loader.Keyed w)
    (text : String) :
    (evaluate ⟨ip.engine, g⟩ s text).Meets w (fun r _ => r.2.Equipped g) (fun _ _ => True) := by
  obtain ⟨cache, hc, hrun⟩ := truthful_interpret hw text
  exact Act.meets_bind (Act.meets_of_run hrun
    (equipped_evaluateProgram ip h (w := { w with cache }) hc ⟨hk.nodup, hk.entry⟩ text))

theorem Equipped.rebound (hg : g.Fitting) (h : s.Equipped g) (hk : s.loader.Keyed w) {k : BindKey} {v : HostValue}
    {s' : Session} {w' : World} (hb : Rebound ip g k v s w s' w') : s'.Equipped g := by
  obtain ⟨hnext, hw', he, hv⟩ := hb
  rename_i next name mods w₁
  have hprelude : ∃ text, next.prelude = g.prelude ++ text := by
    obtain ⟨text, htext⟩ := h.prelude
    rcases bindState_ok hnext with ⟨_, _, rfl⟩ | ⟨d, _, _, rfl⟩
    · exact ⟨text, htext⟩
    · exact ⟨text ++ d.prelude, by rw [htext, String.append_assoc]⟩
  refine ⟨hprelude, .inr (Loader.mem_names_extend ⟨hk.nodup, ?_⟩ mods (.inr ?_))⟩
  · rw [he]
    exact hk.entry
  · obtain ⟨m, found, code, hread, hcompiled, rfl⟩ := verdict_module hv
    obtain ⟨text, htext⟩ := hprelude
    rw [htext] at hread
    refine List.mem_map.mpr ⟨code, List.mem_append_right _ (List.mem_singleton_self _), ?_⟩
    rw [(names_compiled hcompiled).1, hg text m hread]

end Session

open Session in
theorem Call.equipped_act (ip : Interpreter) {g : Generator} (hg : g.Fitting) {s : Session} (h : s.Equipped g)
    {w : World} (hw : Interpreter.Truthful w.cache) (hk : s.loader.Keyed w) (c : Call) :
    (c.act ⟨ip.engine, g⟩ s).Meets w (fun r _ => r.2.Equipped g) (fun _ _ => True) := by
  match c with
  | ask (.bind key value) =>
    refine Act.meets_bind ((rebound_bind ip g s key value hw).mono ?_ fun _ _ _ => trivial)
    rintro s' w' ⟨_, _, hb⟩
    exact Act.meets_pure (h.rebound hg hk hb)
  | ask (.compile text) =>
    refine Act.meets_bind ((Act.meets_run (compile ⟨ip.engine, g⟩ s text) w).mono ?_ fun _ _ _ => trivial)
    exact fun _ _ _ => Act.meets_pure h
  | ask (.evaluate text) => exact equipped_evaluate ip h hw hk text
  | ask (.program text) => exact equipped_evaluateProgram ip h hw hk text
  | read (.ok text) => exact equipped_evaluate ip h hw hk text
  | read (.error text) => exact Act.meets_throw trivial

namespace Service

variable {ip : Interpreter} {g : Nat → Generator} {capacity : Option Int} {v : Service} {vs : List HostValue}

/-- **With fitting generators, every session holds the module that its bound values are written to.** -/
theorem Reached.equipped (hlib : ip.setting.host.Natural) (hg : ∀ i, (g i).Fitting)
    (h : Reached ip g capacity v vs) (i : Nat) : (v.sessions i).Equipped (g i) := by
  induction h generalizing i with
  | start => exact Session.equipped_fresh (g i)
  | make _ _ ih => exact ih i
  | @after v vs h x hx ih =>
    obtain ⟨ls, p, hs⟩ := h.settled hlib
    have hk := hs.whole.complete.coherent.keyed _ (hs.loaders x.session)
    have hact := Call.equipped_act ip (hg x.session) (ih x.session) (w := { v.world with context := x.context })
      hs.twin.truthful.1 ⟨hk.nodup, hk.entry⟩ x.call
    unfold Act.Meets at hact
    unfold Service.after outcome
    generalize (x.call.act ⟨ip.engine, g x.session⟩ (v.sessions x.session)).run
      { v.world with context := x.context } = y at hact ⊢
    obtain ⟨r, w'⟩ := y
    cases r with
    | error e => exact ih i
    | ok r =>
      by_cases hi : i = x.session
      · subst hi
        simpa using hact
      · simpa [Function.update_of_ne hi] using ih i

end Service

end LazySession
