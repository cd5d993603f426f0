import LazySession.Proofs.Session.Repeated
import LazySession.Proofs.Twin.Craft

/-!
# What sessions come to

Any number of sessions are called in any order, and what one of them has answered with may be bound in
any of them, as may what the host makes: `Service.Reached`. `Service.Reached.ready`: after all calls,
every session is ready for an expression.
-/

namespace LazySession

/-! ## Loaders that all fit together -/

namespace World

/-- Every loader holds the imports of its modules, and nothing is being evaluated. -/
structure Whole (ls : List Loader) (w : World) : Prop where
  complete : Family.Complete ⟨w, ls⟩
  idle : w.heap.Idle

theorem Whole.make {ls : List Loader} {w : World} (h : Whole ls w) (known : Nat → HostValue) (c : Craft) :
    Whole ls { w with heap := (c.make known w.heap).2 } := by
  have hcomplete : Family.Coherent ⟨{ w with heap := (c.make known w.heap).2 }, ls⟩ ∧
      Family.Later ⟨w, ls⟩ ⟨{ w with heap := (c.make known w.heap).2 }, ls⟩ :=
    Family.coherent_heap h.complete.coherent (c.fills_make known w.heap) rfl rfl
  obtain ⟨hcoherent, hlater⟩ := hcomplete
  exact ⟨⟨hcoherent, h.complete.cache, fun l hl => h.complete.later hlater hl⟩,
    (c.adds_make known w.heap).idle h.idle⟩

theorem Whole.reads {ls : List Loader} {w w' : World} (h : Whole ls w) (hr : Interpreter.ReadsOn w w') :
    Whole ls w' := by
  refine ⟨h.complete.reads hr, ?_⟩
  obtain ⟨_, _, _, rfl⟩ := hr
  exact h.idle

end World

namespace Session

open Interpreter World

variable {ip : Interpreter} {g : Generator} {s : Session} {w w' : World} {ls : List Loader} {l : Loader}

theorem whole_interpret (h : Whole ls w) (text : String) :
    (interpret text).Meets w (fun p w' => IsReading p.parsed ∧ Whole ls w') (fun _ _ => False) := by
  obtain ⟨hp, hc⟩ := isReading_readFragment h.complete.cache fragmentSource text
  exact Act.meets_of_run rfl ⟨hp, h.reads ⟨_, w.context, hc, rfl⟩⟩

theorem whole_run (ip : Interpreter) (h : Whole ls w) (hl : l ∈ ls) {p : Program} (hp : IsReading p.parsed)
    (history : History) : (ip.engine.run p history l).Meets w
      (fun r w' => Whole (Family.made (.ok r) ++ ls) w') (fun _ w' => Whole ls w') := by
  have hcomplete := Family.complete_work h.complete (.run ip hp history (some (.ours l)) hl)
  have hyields := yields_run ip history (some (.ours l)) hp h.complete.cache
  change (ip.run (.ours p) history (some (.ours l))).Meets w _ _
  unfold Act.Meets at hyields ⊢
  generalize (ip.run (.ours p) history (some (.ours l))).run w = q at hcomplete hyields ⊢
  obtain ⟨r, w'⟩ := q
  cases r with
  | error e => exact h.reads hyields
  | ok r =>
    refine ⟨hcomplete, ?_⟩
    cases hyields with
    | rejected hr => exact (h.reads hr).idle
    | accepted hr _ _ =>
      rw [(Loader.untouched_extend _ _ _).1.heap]
      exact (h.reads hr).idle

theorem serves_whole (ws : Workshop) (hl : l ∈ ls) : Serves ws l fun w w' => Whole ls w → Whole ls w' := by
  have hkept := Loader.kept_calms ws.engine.setting
  have hcache := serves_leaves ws l
  have hstep : ∀ {w w' : World}, Calms w w' → Loader.Leaves w w' → (Family.Coherent ⟨w, ls⟩ →
      Family.Coherent ⟨w', ls⟩ ∧ Family.Later ⟨w, ls⟩ ⟨w', ls⟩) → Whole ls w → Whole ls w' := by
    intro w w' hcalms hleaves hcoherent hw
    obtain ⟨hc, hlater⟩ := hcoherent hw.complete.coherent
    refine ⟨⟨hc, ?_, fun l hm => hw.complete.later hlater hm⟩, hcalms.1 hw.idle⟩
    rw [hleaves.1]
    exact hw.complete.cache
  refine ⟨fun _ => id, fun h h' hw => h' (h hw), fun name => ?_, fun i field => ?_, fun i field v => ?_⟩ <;>
    refine Loader.holding_of_run fun w => hstep ?_ ?_ ?_
  · exact (hkept.load l name).world w
  · exact (hcache.load name).world w
  · exact fun hc => Family.coherent_load hc hl ws.engine.setting name
  · exact (hkept.read i field).world w
  · exact (hcache.read i field).world w
  · exact fun hc => Family.coherent_read hc i ws.engine.setting field
  · exact (i.calms_write field v).world w
  · exact (hcache.write i field v).world w
  · exact fun hc => Family.coherent_write hc i field v

/-- The loader of the session is among loaders that all fit together, the given ones being there still. -/
def Joins (ls : List Loader) (s : Session) (w : World) : Prop :=
  ∃ ls', ls ⊆ ls' ∧ s.loader ∈ ls' ∧ Whole ls' w

theorem joins_of_whole (h : Whole ls w) (hs : s.loader ∈ ls) : Joins ls s w := ⟨ls, List.Subset.refl _, hs, h⟩

theorem joins_cons (h : Whole (l :: ls) w) (hs : s.loader ∈ ls) : Joins ls s w :=
  ⟨l :: ls, List.subset_cons_self _ _, List.mem_cons_of_mem _ hs, h⟩

theorem joins_evaluateProgram (ip : Interpreter) (g : Generator) (h : Whole ls w) (hs : s.loader ∈ ls)
    {p : Program} (hp : IsReading p.parsed) :
    (evaluateProgram ⟨ip.engine, g⟩ s p).Meets w (fun r w' => Joins ls r.2 w') (fun _ w' => Joins ls s w') := by
  refine Act.meets_bind (meets_lock ?_ (joins_of_whole h hs))
  refine Act.meets_bind (Act.meets_during ((whole_run ip h hs hp s.history).mono (fun r w₁ h₁ => ?_)
    fun _ _ h₁ => joins_of_whole h₁ hs))
  match r with
  | .rejected _ => exact Act.meets_throw (joins_of_whole h₁ hs)
  | .accepted (.module _) l => exact Act.meets_pure ⟨_, List.subset_cons_self _ _, List.mem_cons_self, h₁⟩
  | .accepted .definitions _ => exact Act.meets_pure (joins_cons h₁ hs)
  | .accepted (.expression sym) l =>
    exact Act.meets_bind (((serves_whole _ List.mem_cons_self).readSymbol s sym w₁).mono
      (fun _ _ h₂ => Act.meets_pure (joins_cons (h₂ h₁) hs)) fun _ _ h₂ => joins_cons (h₂ h₁) hs)

theorem joins_evaluate (ip : Interpreter) (g : Generator) (h : Whole ls w) (hs : s.loader ∈ ls)
    (text : String) :
    (evaluate ⟨ip.engine, g⟩ s text).Meets w (fun r w' => Joins ls r.2 w') (fun _ w' => Joins ls s w') := by
  refine Act.meets_bind ((whole_interpret h text).mono ?_ fun _ _ hf => hf.elim)
  rintro p w₁ ⟨hp, h₁⟩
  exact joins_evaluateProgram ip g h₁ hs hp

theorem joins_compile (ip : Interpreter) (g : Generator) (h : Whole ls w) (hs : s.loader ∈ ls)
    (text : String) :
    (compile ⟨ip.engine, g⟩ s text).Meets w (fun _ w' => Joins ls s w') (fun _ w' => Joins ls s w') := by
  refine Act.meets_bind ((whole_interpret h text).mono ?_ fun _ _ hf => hf.elim)
  rintro p w₁ ⟨hp, h₁⟩
  refine Act.meets_bind (Act.meets_during ((whole_run ip h₁ hs hp s.history).mono (fun r w₂ h₂ => ?_)
    fun _ _ h₂ => joins_of_whole h₂ hs))
  cases r with
  | rejected ds => exact Act.meets_throw (joins_of_whole h₂ hs)
  | accepted kind l => exact Act.meets_pure (joins_cons h₂ hs)

theorem joins_reload (ip : Interpreter) (g : Generator) (h : Whole ls w) (hs : s.loader ∈ ls) :
    (reload ⟨ip.engine, g⟩ s).Meets w (fun s' w' => Joins ls s' w') (fun _ w' => Joins ls s w') := by
  refine Act.meets_bind ((whole_interpret h s.prelude).mono ?_ fun _ _ hf => hf.elim)
  rintro p w₁ ⟨hp, h₁⟩
  refine Act.meets_bind (Act.meets_during ((whole_run ip h₁ hs hp s.history).mono (fun r w₂ h₂ => ?_)
    fun _ _ h₂ => joins_of_whole h₂ hs))
  match r with
  | .rejected _ => exact Act.meets_throw (joins_of_whole h₂ hs)
  | .accepted (.module _) l => exact Act.meets_pure ⟨_, List.subset_cons_self _ _, List.mem_cons_self, h₂⟩
  | .accepted .definitions _ | .accepted (.expression _) _ => exact Act.meets_throw (joins_cons h₂ hs)

theorem joins_bind (ip : Interpreter) (g : Generator) (h : Whole ls w) (hs : s.loader ∈ ls) (key : String)
    (v : HostValue) :
    (bind ⟨ip.engine, g⟩ s key v).Meets w (fun s' w' => Joins ls s' w') (fun _ w' => Joins ls s w') := by
  refine Act.meets_bind (meets_lock ?_ (joins_of_whole h hs))
  cases hk : BindKey.ofText key with
  | error e => exact Act.meets_throw (joins_of_whole h hs)
  | ok k =>
    cases hnext : bindState g s k v with
    | error e =>
      simp only [hnext]
      exact Act.meets_throw (joins_of_whole h hs)
    | ok next =>
      have hloader := loader_bindState hnext
      simp only [hnext]
      refine Act.meets_tryCatch ((joins_reload ip g h (s := next) (hloader ▸ hs)).mono (fun _ _ h' => h') ?_)
      rintro _ _ ⟨ls', hsub, -, h'⟩
      exact Act.meets_throw ⟨ls', hsub, hsub hs, h'⟩

end Session

open Session in
theorem Call.joins_act (ip : Interpreter) (g : Generator) {s : Session} (c : Call) {w : World}
    {ls : List Loader} (h : w.Whole ls) (hs : s.loader ∈ ls) :
    (c.act ⟨ip.engine, g⟩ s).Meets w (fun r w' => Joins ls r.2 w') (fun _ w' => Joins ls s w') := by
  match c with
  | ask (.bind key value) =>
    exact Act.meets_bind ((joins_bind ip g h hs key value).mono (fun _ _ h' => Act.meets_pure h') fun _ _ h' => h')
  | ask (.compile text) =>
    exact Act.meets_bind ((joins_compile ip g h hs text).mono (fun _ _ h' => Act.meets_pure h') fun _ _ h' => h')
  | ask (.evaluate text) => exact joins_evaluate ip g h hs text
  | ask (.program text) => exact joins_evaluateProgram ip g h hs ⟨_, text, .inl rfl⟩
  | read (.ok text) => exact joins_evaluate ip g h hs text
  | read (.error text) => exact Act.meets_throw (joins_of_whole h hs)

/-! ## What is paired with itself -/

theorem HostValue.Twin.diag {p : Pairing} {v v' : HostValue} (h : v.Twin p v') : v.Twin p.diag v := by
  cases h with
  | nil => exact .nil
  | data d => exact .data d
  | object h => exact .object h.diag

theorem Session.Twin.diag {p : WorldPairing} {s s' : Session} (h : s.Twin p s') : s.Twin p.diag s where
  history := rfl
  loader := forall₂_diag (fun _ _ hx => ⟨rfl, rfl, _, hx.2⟩) h.loader
  bindings := forall₂_diag (fun _ _ hx => ⟨rfl, rfl, hx.2.value.diag⟩) h.bindings
  prelude := rfl
  reloads := rfl

/-! ## Sessions that are called -/

/-- The value is nothing, a datum, or one of the given ones. -/
def HostValue.Known (vs : List HostValue) : HostValue → Prop
  | .nil | .data _ => True
  | .object v => .object v ∈ vs

/-- What is to be bound, if anything, is known. -/
def Call.Brings (vs : List HostValue) : Call → Prop
  | .ask (.bind _ v) => v.Known vs
  | _ => True

namespace Service

/-- What is known to a host, the latest first. -/
def known (vs : List HostValue) (n : Nat) : HostValue := vs.getD n .nil

/-- Calls, and objects that the host makes, lead to the service. The answers and the objects may be bound
in any session. -/
inductive Reached (ip : Interpreter) (g : Nat → Generator) (capacity : Option Int) :
    Service → List HostValue → Prop
  | start : Reached ip g capacity (.start g capacity) []
  | make {v : Service} {vs : List HostValue} (h : Reached ip g capacity v vs) (c : Craft) :
    Reached ip g capacity (v.make (known vs) c) (c.value (known vs) v.world.heap :: vs)
  | after {v : Service} {vs : List HostValue} (h : Reached ip g capacity v vs) (x : Visit)
    (hx : x.call.Brings vs) :
    Reached ip g capacity (v.after ip g x) ((v.answer ip g x).toOption.toList ++ vs)

/-- What sessions have to do with one another fits together, and is paired with itself. -/
structure Settled (ls : List Loader) (p : WorldPairing) (v : Service) (vs : List HostValue) : Prop where
  twin : v.world.Twin .nothing p v.world
  diagonal : p.Diagonal
  session : ∀ i, (v.sessions i).Twin p (v.sessions i)
  answers : ∀ a ∈ vs, a.Twin p.heap a
  whole : v.world.Whole ls
  loaders : ∀ i, (v.sessions i).loader ∈ ls

variable {ip : Interpreter} {g : Nat → Generator} {capacity : Option Int} {v : Service} {vs : List HostValue}
variable {ls : List Loader} {p : WorldPairing}

theorem settled_start (g : Nat → Generator) (capacity : Option Int) :
    ∃ p, Settled [.empty] p (start g capacity) [] := by
  have hcache : (start g capacity).world.cache.All IsReading := by
    cases capacity <;> rintro _ ⟨⟩
  have hempty : ∀ {α : Type} (R : α → α → Prop) (old xs ys : Array α),
      Mirrors (fun _ _ => False) R (fun _ => False) old xs ys :=
    fun R old xs ys => ⟨fun h => h.elim, fun h => h.elim, fun h => h.elim⟩
  refine ⟨⟨⟨fun _ _ => False, fun _ _ => False, fun _ _ => False⟩, fun _ _ => False, fun _ _ => False⟩,
    ⟨⟨hempty .., hempty .., hempty .., nofun⟩, hempty .., hempty .., rfl, truthful_start g capacity,
      truthful_start g capacity⟩,
    ⟨⟨nofun, nofun, nofun⟩, nofun, nofun⟩, fun i => ⟨rfl, .nil, .nil, rfl, rfl⟩, nofun,
    ⟨Family.complete_empty hcache, ?_⟩, fun i => List.mem_singleton_self _⟩
  rintro id ⟨_, hid, -⟩
  cases hid

theorem Settled.call (h : Settled ls p v vs) {c : Call} (hc : c.Brings vs) : c.Twin p c := by
  match c with
  | .ask (.bind key .nil) => exact .bind key .nil
  | .ask (.bind key (.data d)) => exact .bind key (.data d)
  | .ask (.bind key (.object a)) => exact .bind key (h.answers _ hc)
  | .ask (.evaluate text) => exact .evaluate text
  | .ask (.program text) => exact .program text
  | .ask (.compile text) => exact .compile text
  | .read source => exact .read source

theorem Settled.known (h : Settled ls p v vs) (n : Nat) : (known vs n).Twin p.heap (known vs n) := by
  unfold Service.known
  rw [List.getD_eq_getElem?_getD]
  cases hn : vs[n]? with
  | none => exact .nil
  | some a => exact h.answers a (List.mem_of_getElem? hn)

theorem settled_make (h : Settled ls p v vs) (c : Craft) :
    ∃ p', Settled ls p' (v.make (Service.known vs) c) (c.value (Service.known vs) v.world.heap :: vs) := by
  obtain ⟨q, hq, hr, hheap⟩ := c.make_twin h.twin.heap h.known
  have hw := h.twin.withHeap hq hheap
  have hvalue := Craft.value_twin hr
  have hwithin := h.diagonal.within_diag (WorldPairing.within_heap hq)
  refine ⟨_, hw.diag, WorldPairing.diagonal_diag _, fun i => (h.session i).mono hwithin, fun a ha => ?_,
    h.whole.make _ c, h.loaders⟩
  rcases List.mem_cons.mp ha with rfl | ha
  · exact hvalue.diag
  · exact (h.answers a ha).mono hwithin.heap

theorem settled_after (hlib : ip.setting.host.Natural) (h : Settled ls p v vs) {x : Visit}
    (hx : x.call.Brings vs) :
    ∃ ls' p', Settled ls' p' (v.after ip g x) ((v.answer ip g x).toOption.toList ++ vs) := by
  have htwin : World.Twin .nothing p { v.world with context := x.context } { v.world with context := x.context } :=
    ⟨h.twin.heap, h.twin.entries, h.twin.instances, rfl, h.twin.truthful⟩
  obtain ⟨q, hq, hr, hw⟩ := Call.together_act hlib (g x.session) (h.session x.session) (h.call hx) htwin
  have hwhole : World.Whole ls { v.world with context := x.context } :=
    h.whole.reads ⟨v.world.cache, x.context, h.whole.complete.cache, rfl⟩
  have hjoins := Call.joins_act ip (g x.session) x.call hwhole (h.loaders x.session)
  have hwithin : p.Within q.diag := h.diagonal.within_diag hq
  unfold Act.Meets at hjoins
  unfold after answer outcome
  generalize (x.call.act ⟨ip.engine, g x.session⟩ (v.sessions x.session)).run
    { v.world with context := x.context } = y at hr hw hjoins ⊢
  obtain ⟨r, w'⟩ := y
  cases r with
  | error e =>
    obtain ⟨ls', hsub, -, hwhole'⟩ := hjoins
    exact ⟨ls', q.diag, hw.diag, q.diagonal_diag, fun i => (h.session i).mono hwithin,
      fun a ha => (h.answers a ha).mono hwithin.heap, hwhole', fun i => hsub (h.loaders i)⟩
  | ok a =>
    obtain ⟨a, s⟩ := a
    obtain ⟨ls', hsub, hs, hwhole'⟩ := hjoins
    cases hr with
    | ok hr =>
    refine ⟨ls', q.diag, hw.diag, q.diagonal_diag, fun i => ?_, fun a' ha => ?_, hwhole', fun i => ?_⟩
    · by_cases hi : i = x.session
      · subst hi
        simpa using hr.2.diag
      · simpa [Function.update_of_ne hi] using (h.session i).mono hwithin
    · rcases List.mem_cons.mp ha with rfl | ha
      · exact hr.1.diag
      · exact (h.answers a' ha).mono hwithin.heap
    · by_cases hi : i = x.session
      · subst hi
        simpa using hs
      · simpa [Function.update_of_ne hi] using hsub (h.loaders i)

theorem Reached.settled (hlib : ip.setting.host.Natural) (h : Reached ip g capacity v vs) :
    ∃ ls p, Settled ls p v vs := by
  induction h with
  | start => exact ⟨_, settled_start g capacity⟩
  | make _ c ih =>
    obtain ⟨ls, p, hs⟩ := ih
    exact ⟨ls, settled_make hs c⟩
  | after _ x hx ih =>
    obtain ⟨ls, p, hs⟩ := ih
    exact settled_after hlib hs hx

/-- **After all calls, every session is ready for an expression.** -/
theorem Reached.ready (hlib : ip.setting.host.Natural) (h : Reached ip g capacity v vs) (i : Nat) :
    ∃ p, (v.sessions i).Ready p { v.world with context := {} } := by
  obtain ⟨ls, p, hs⟩ := h.settled hlib
  have hwhole : World.Whole ls { v.world with context := {} } :=
    hs.whole.reads ⟨v.world.cache, {}, hs.whole.complete.cache, rfl⟩
  refine ⟨p, ⟨hs.twin.heap, hs.twin.entries, hs.twin.instances, rfl, hs.twin.truthful⟩, hs.diagonal,
    hs.session i, ⟨?_, hwhole.idle, rfl⟩, hwhole.complete.imports _ (hs.loaders i)⟩
  exact hwhole.complete.coherent.subset fun _ hl => List.mem_singleton.mp hl ▸ hs.loaders i

end Service

end LazySession
