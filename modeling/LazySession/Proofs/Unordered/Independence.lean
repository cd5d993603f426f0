import LazySession.Proofs.Session.Service
import LazySession.Proofs.Unordered.Runs

/-!
# The order of tables is not seen

Runs and loads go on with what earlier ones have left, and each of them goes through its tables in an
order of its own. `Unordered.orders_unseen`: however these orders were chosen before and are chosen
now, a run comes to the same complaints or to the same kind and loader, and a load to the same error
or to an instance with the same fields, up to the numbers of entries.
-/

namespace LazySession

/-- The loader that was handed in with other numbers for its entries. -/
def Supplied.rename (π : Equiv.Perm EntryId) : Supplied Loader → Supplied Loader
  | .ours l => .ours (l.rename π)
  | .foreign type => .foreign type

namespace Unordered

open Interpreter (Truthful fragmentSource programOf)

section
variable {π ρ : Equiv.Perm EntryId} {w w' : World} {n : Nat}

/-! ## Runs with other numbers -/

theorem follows_compileAgainst (ip : Interpreter) (l : Loader) (name : String) (ps : List Piece)
    (hw : w.Plain) (h : w.Alike π w') :
    Follows π w w' (just (ip.compileAgainst (l.rename π) name ps))
      (ip.compileAgainst l name ps) := by
  have hrun : ∀ (l : Loader) (w : World), (ip.compileAgainst l name ps).run w =
      (let p := (Interpreter.compile (Interpreter.resolve ip.locator (l.code? w)
        (ip.locator.size + 2) []) name ps).run { cache := w.cache, found := [] }
      (.ok (p.1.map (p.2.found, ·)), { w with cache := p.2.cache })) := fun _ _ => rfl
  unfold Follows
  rw [outcomes_just, hrun, hrun, Loader.code?_rename h, h.cache]
  exact ⟨hw.aside .., ends_pure ⟨rfl, h.onCache _⟩⟩

theorem follows_compileBehind (ip : Interpreter) (history : History) (l : Loader) (name : String)
    (decls : List Decl) (hw : w.Plain) (h : w.Alike π w') :
    Follows π w w' (just (ip.compileBehind history (l.rename π) name decls))
      (ip.compileBehind history l name decls) := by
  have hrun : ∀ w : World, (Interpreter.definitionPieces history).run w =
      (.ok (Interpreter.readDefinitions w.cache 0 history.program).1,
        { w with cache := (Interpreter.readDefinitions w.cache 0 history.program).2 }) :=
    fun _ => rfl
  have hpieces : Follows π w w' (just (Interpreter.definitionPieces history))
      (Interpreter.definitionPieces history) := by
    unfold Follows
    rw [outcomes_just, hrun, hrun, h.cache]
    exact ⟨hw.aside .., ends_pure ⟨rfl, h.onCache _⟩⟩
  refine follows_just_bind hpieces fun q w₁ w₁' hw₁ h₁ => ?_
  obtain ⟨ps, ds⟩ := q
  simp only
  split
  · exact follows_compileAgainst ip l name _ hw₁ h₁
  · exact ⟨hw₁, ends_pure ⟨rfl, h₁⟩⟩

theorem agrees_bind {α : Type} {x y : Act α} {f g : α → Act RunResult}
    (h : Follows π w w' (just y) x) (hf : ∀ a w₁ w₁', w₁.Plain → w₁.Alike π w₁' →
      Agrees π n ((f a).run w₁) ((g a).run w₁')) :
    Agrees π n ((x >>= f).run w) ((y >>= g).run w') := by
  obtain ⟨hplain, hends⟩ := h
  obtain ⟨hresult, halike⟩ := hends.2 _ (mem_pure.mpr rfl)
  rw [Act.run_bind, Act.run_bind]
  generalize x.run w = p at hplain hresult halike ⊢
  generalize y.run w' = q at hresult halike ⊢
  obtain ⟨r, w₁⟩ := p
  obtain ⟨r', w₁'⟩ := q
  obtain rfl : r' = r := hresult
  cases r' with
  | ok a => exact hf a w₁ w₁' hplain halike
  | error e => exact .error e halike

theorem agrees_runFragment (ip : Interpreter) (text : String) (f : Fragment) (history : History)
    (l : Loader) (hw : w.Plain) (h : w.Alike π w') :
    Agrees π n ((ip.runFragment text f history l).run w)
      ((ip.runFragment text f history (l.rename π)).run w') := by
  have hextend : ∀ (kind : SourceKind) (mods : List ModuleCode) {w w' : World}, w.Alike π w' →
      Agrees π n ((Interpreter.extendLoader l mods >>= fun l => return .accepted kind l).run w)
        ((Interpreter.extendLoader (l.rename π) mods >>= fun l => return .accepted kind l).run w') :=
    fun kind mods _ _ h => .accepted kind (fun _ _ => rfl) (Loader.Same.extend h l mods)
  cases f with
  | module m =>
    refine agrees_bind (follows_compileAgainst ip l m.name _ hw h) fun r w₁ w₁' _ h₁ => ?_
    rcases r with ds | ⟨found, code⟩
    · exact .rejected ds h₁
    · exact hextend _ _ h₁
  | definitions decls =>
    refine agrees_bind (follows_compileBehind ip history l _ decls hw h) fun r w₁ w₁' _ h₁ => ?_
    rcases r with ds | ⟨found, code⟩
    · exact .rejected ds h₁
    · exact hextend _ _ h₁
  | expression e =>
    refine agrees_bind (follows_compileBehind ip history l _ _ hw h) fun r w₁ w₁' _ h₁ => ?_
    rcases r with ds | ⟨found, code⟩
    · exact .rejected ds h₁
    · exact hextend _ _ h₁

theorem agrees_run (ip : Interpreter) (p : Program) (history : History)
    (loader : Option (Supplied Loader)) (hw : w.Plain) (h : w.Alike π w') :
    Agrees π n ((ip.run (.ours p) history loader).run w)
      ((ip.run (.ours p) history (loader.map (.rename π))).run w') := by
  refine agrees_bind (follows_inquire hw h) fun _ w₁ w₁' hw₁ h₁ => ?_
  have hours : ∀ l : Loader, Agrees π n ((ip.runParsed p history l).run w₁)
      ((ip.runParsed p history (l.rename π)).run w₁') := by
    intro l
    unfold Interpreter.runParsed
    cases p.parsed with
    | error es => exact .rejected _ h₁
    | ok f => exact agrees_runFragment ip p.text f history l hw₁ h₁
  rcases loader with _ | l | type
  · exact hours .empty
  · exact hours l
  · exact .error _ h₁

/-! ## Agreement -/

theorem lt_of_fixed (hπ : ∀ id, n ≤ id → π id = id) {id : EntryId} (h : id < n) : π id < n := by
  by_contra hge
  have hfixed : π id = id := π.injective (hπ (π id) (Nat.le_of_not_lt hge))
  rw [hfixed] at hge
  exact hge h

section
variable {o o' o'' : Except Error RunResult × World}

theorem Agrees.symm (h : Agrees π n o o') (hπ : ∀ id, n ≤ id → π id = id) :
    Agrees π.symm n o' o := by
  have hπ' : ∀ id, n ≤ id → π.symm id = id := fun id hid => by
    rw [Equiv.symm_apply_eq, hπ id hid]
  cases h with
  | error e h => exact .error e h.symm
  | rejected ds h => exact .rejected ds h.symm
  | accepted kind hold h =>
    refine .accepted kind (fun id hid => ?_) h.symm
    rw [Equiv.symm_apply_eq, hold _ (lt_of_fixed hπ' hid), Equiv.apply_symm_apply]

theorem Agrees.trans (h : Agrees π n o o') (h' : Agrees ρ n o' o'')
    (hπ : ∀ id, n ≤ id → π id = id) : Agrees (π.trans ρ) n o o'' := by
  cases h with
  | error e h =>
    cases h' with
    | error _ h' => exact .error e (h.trans h')
  | rejected ds h =>
    cases h' with
    | rejected _ h' => exact .rejected ds (h.trans h')
  | accepted kind hold h =>
    cases h' with
    | accepted _ hold' h' =>
      refine .accepted kind (fun id hid => ?_) (h.trans h')
      rw [Equiv.trans_apply, hold id hid, hold' _ (lt_of_fixed hπ hid), Equiv.trans_apply]

end

/-- The same outcome in worlds whose entries have other numbers: the same error or the same instance,
and every field of every instance is read alike. -/
structure Loads (π : Equiv.Perm EntryId) (o o' : Except Error InstanceId × World) : Prop where
  result : o'.1 = o.1
  world : o.2.Alike π o'.2
  fields : ∀ (id : InstanceId) (i : Instance), o.2.instances[id]? = some i →
    o'.2.instances[id]? = some i ∧ ∀ (set : Setting) (field : String),
      ((i.read set field).run o'.2).1 = ((i.read set field).run o.2).1

theorem loads_of_alike {r : Except Error InstanceId} (hw : w.Plain) (h : w.Alike π w') :
    Loads π (r, w) (r, w') := by
  refine ⟨rfl, h, fun id i hi => ⟨?_, fun set field => ?_⟩⟩
  · show w'.instances[id]? = some i
    rw [h.instances, hi]
  · exact ((follows_read set i field hw h).2.2 _ (mem_pure.mpr rfl)).1

end

/-! ## Runs that follow one another -/

/-- A fragment is run against a loader that is there, with any search path, a module is loaded, both
in any order, or something is done where there is no order to choose. -/
inductive Work : Family → Family → Prop
  | run {w : World} {ls : List Loader} (ip : Interpreter) (text : String) (history : History)
    (loader : Option (Supplied Loader)) (hl : Interpreter.suppliedLoader loader ∈ ls)
    {o : Except Error RunResult × World}
    (ho : o ∈ (outcomes (run ip (.ours (programOf text)) history loader) w).run) :
    Work ⟨w, ls⟩ ⟨o.2, Family.made o.1 ++ ls⟩
  | load {w : World} {ls : List Loader} (set : Setting) {l : Loader} (hl : l ∈ ls) (name : String)
    {o : Except Error InstanceId × World} (ho : o ∈ (outcomes (load set l name) w).run) :
    Work ⟨w, ls⟩ ⟨o.2, ls⟩
  | read {w : World} {ls : List Loader} (i : Instance) (set : Setting) (field : String) :
    Work ⟨w, ls⟩ ⟨((i.read set field).run w).2, ls⟩
  | write {w : World} {ls : List Loader} (i : Instance) (field : String) (v : HostValue) :
    Work ⟨w, ls⟩ ⟨((i.write field v).run w).2, ls⟩
  | other {w : World} {ls : List Loader} {cache : Cache Parsed} (hc : Truthful cache)
    (context : Context) : Work ⟨w, ls⟩ ⟨{ w with cache, context }, ls⟩

abbrev Works : Family → Family → Prop := Relation.ReflTransGen Work

/-- Texts are known as what they are, names have no dots in them, and loaders hold what they name. -/
structure Orderly (f : Family) : Prop where
  cache : Truthful f.world.cache
  plain : f.world.Plain
  keyed : ∀ l ∈ f.loaders, l.Keyed f.world

theorem orderly_empty {cache : Cache Parsed} (h : cache.entries = []) :
    Orderly ⟨{ cache }, [.empty]⟩ where
  cache := Interpreter.truthful_empty h
  plain := ⟨nofun, nofun⟩
  keyed l hl := by
    rw [List.mem_singleton.mp hl]
    exact Loader.keyed_empty _

theorem Orderly.leaves {w w' : World} {ls : List Loader} (h : Orderly ⟨w, ls⟩)
    (hw : Loader.Leaves w w') (hplain : w'.Plain) : Orderly ⟨w', ls⟩ where
  cache := by
    show Truthful w'.cache
    rw [hw.1]
    exact h.cache
  plain := hplain
  keyed l hl := hw.2.keyed (h.keyed l hl)

theorem orderly_work {f g : Family} (h : Orderly f) (hw : Work f g) : Orderly g := by
  cases hw with
  | @run w ls ip text history loader hl o ho =>
    -- nothing is asked of the signatures here
    have hleaves := ((ran_run (P := False) nofun loader (h.keyed _ hl) h.plain h.cache).2 o ho).1
    refine ⟨hleaves.cache, hleaves.plain, fun l hm => ?_⟩
    rcases List.mem_append.mp hm with hm | hm
    · obtain ⟨r, w'⟩ := o
      rcases r with _ | ⟨kind, l'⟩ | _
      · cases hm
      · rw [List.mem_singleton.mp hm]
        exact hleaves.made kind l' rfl
      · cases hm
    · exact hleaves.kept l (h.keyed l hm)
  | @load w ls set l hl name o ho =>
    have hfollows := follows_load set l name h.plain (.refl w)
    rw [Loader.rename_refl] at hfollows
    obtain ⟨hplain, hends⟩ := hfollows
    obtain ⟨-, halike⟩ := hends.2 o ho
    have hleaves := ((Loader.kept_leaves set).load l name).world w
    have horderly := h.leaves hleaves hplain
    refine ⟨?_, hplain.alike halike, fun l' hl' => ?_⟩
    · show Truthful o.2.cache
      rw [halike.cache]
      exact horderly.cache
    · have hkeyed := (horderly.keyed l' hl').rename halike
      rw [Loader.rename_refl] at hkeyed
      exact hkeyed
  | @read w ls i set field =>
    have hleaves := ((Loader.kept_leaves set).read i field).world w
    exact h.leaves hleaves (follows_read set i field h.plain (.refl w)).1
  | @write w ls i field v =>
    have hheap : ∃ heap, ((i.write field v).run w).2 = { w with heap } := by
      unfold Instance.write
      cases i.fields.get? field with
      | none => exact ⟨w.heap, rfl⟩
      | some v' =>
        rw [Act.run_bind, Act.run_get]
        simp only
        cases Instance.cell? w.heap v' with
        | none => exact ⟨w.heap, rfl⟩
        | some c => exact ⟨_, rfl⟩
    obtain ⟨heap, hheap⟩ := hheap
    rw [hheap]
    exact h.leaves (Loader.leaves_of_eq rfl rfl) (h.plain.aside ..)
  | other hc context =>
    exact ⟨hc, h.plain.aside .., fun l hl => ⟨(h.keyed l hl).nodup, (h.keyed l hl).entry⟩⟩

theorem orderly_works {f g : Family} (h : Orderly f) (hw : Works f g) : Orderly g := by
  induction hw with
  | refl => exact h
  | tail _ hstep ih => exact orderly_work ih hstep

section
variable {π : Equiv.Perm EntryId} {f : Family} {w' : World}

/-- All runs of a fragment agree with the one that goes through tables in their own order. -/
theorem Orderly.run (h : Orderly f) (a : f.world.Alike π w') {ip : Interpreter} {text : String}
    {history : History} {loader : Option (Supplied Loader)}
    (hl : Interpreter.suppliedLoader loader ∈ f.loaders) (hone : OneLackingIn ip history text) :
    Ends (outcomes (run ip (.ours (programOf text)) history (loader.map (.rename π))) w')
      (Agrees π f.world.entries.size
        ((ip.run (.ours (programOf text)) history loader).run f.world)) := by
  have hsupplied : Interpreter.suppliedLoader (loader.map (.rename π)) =
      (Interpreter.suppliedLoader loader).rename π := by
    rcases loader with _ | l | type <;> rfl
  have hkeyed : (Interpreter.suppliedLoader (loader.map (.rename π))).Keyed w' := by
    rw [hsupplied]
    exact (h.keyed _ hl).rename a
  have hcache : Truthful w'.cache := by
    rw [a.cache]
    exact h.cache
  have hran := ran_run (fun _ => hone) (loader.map (.rename π)) hkeyed (h.plain.alike a) hcache
    (P := True)
  have hrenamed := agrees_run ip (programOf text) history loader h.plain a
    (n := f.world.entries.size)
  refine hran.mono fun o ho => ?_
  have hagrees := ho.2 trivial
  rw [a.size] at hagrees
  exact hrenamed.trans hagrees a.fixed

/-- However tables were gone through before and are gone through now, a run in which no signature has
two names that lack a binding has an outcome, and all its outcomes agree: with one another, with the
run that goes through tables in their own order, and with those against the same loader in a world
whose entries have other numbers. The same is true of loads. -/
theorem orders_unseen {cache : Cache Parsed} (hcache : cache.entries = [])
    (hf : Works ⟨{ cache }, [.empty]⟩ f) (a : f.world.Alike π w') :
    (∀ (ip : Interpreter) (text : String) (history : History) (loader : Option (Supplied Loader)),
      Interpreter.suppliedLoader loader ∈ f.loaders → OneLackingIn ip history text →
      Ends (outcomes (run ip (.ours (programOf text)) history loader) f.world) fun o =>
        Agrees (.refl _) f.world.entries.size
          ((ip.run (.ours (programOf text)) history loader).run f.world) o ∧
        Ends (outcomes (run ip (.ours (programOf text)) history (loader.map (.rename π))) w')
          (Agrees π f.world.entries.size o)) ∧
    (∀ (set : Setting) (l : Loader) (name : String),
      Ends (outcomes (load set l name) f.world) fun o =>
        Loads (.refl _) ((l.load set name).run f.world) o ∧
        Ends (outcomes (load set (l.rename π) name) w') (Loads π o)) := by
  have h := orderly_works (orderly_empty hcache) hf
  refine ⟨fun ip text history loader hl hone => ?_, fun set l name => ?_⟩
  · have hsame : loader.map (.rename (.refl _)) = loader := by
      rcases loader with _ | l | type
      · rfl
      · exact congrArg (fun l => some (Supplied.ours l)) (Loader.rename_refl l)
      · rfl
    have hhere := h.run (.refl f.world) hl hone
    rw [hsame] at hhere
    refine hhere.mono fun o ho => ⟨ho, (h.run a hl hone).mono fun o' ho' => ?_⟩
    have hagrees := (ho.symm fun _ _ => rfl).trans ho' fun _ _ => rfl
    rwa [Equiv.refl_symm, Equiv.refl_trans] at hagrees
  · obtain ⟨hplain, hhere⟩ := follows_load set l name h.plain (.refl f.world)
    obtain ⟨-, hthere⟩ := follows_load set l name h.plain a
    rw [Loader.rename_refl] at hhere
    generalize (l.load set name).run f.world = p at hplain hhere hthere ⊢
    obtain ⟨r, w⟩ := p
    refine hhere.mono fun o ho => ?_
    obtain ⟨_, w₁⟩ := o
    obtain ⟨rfl, h₁⟩ := ho
    refine ⟨loads_of_alike hplain h₁, hthere.mono fun o' ho' => ?_⟩
    obtain ⟨_, w₁'⟩ := o'
    obtain ⟨rfl, h₁'⟩ := ho'
    have halike := h₁.symm.trans h₁'
    rw [Equiv.refl_symm, Equiv.refl_trans] at halike
    exact loads_of_alike (hplain.alike h₁) halike

/-- A module is imported and loaded, and two signatures lack their bindings, each for one name. -/
theorem orders_unseen_unbound : ∃ (ip : Interpreter) (f : Family) (l : Loader) (ds : List Diagnostic),
    l ∈ f.loaders ∧ l.modules.names = ["B"] ∧
    Ends (outcomes (load ip.setting l "B") f.world)
      (Loads (.refl _) ((l.load ip.setting "B").run f.world)) ∧
    Ends (outcomes (run ip (.ours (programOf "f :: Int\ng :: Int\nx = y + B.y")) ⟨["import B"]⟩ none)
      { cache := .disabled }) fun o => o.1 = .ok (.rejected ds) := by
  let ip : Interpreter := ⟨⟨[], ".mhs", [("B", "module B where\ny = 1\nz = y\n")]⟩, ⟨.empty, 10⟩⟩
  let w : World := { cache := .disabled }
  let start : Family := ⟨w, [.empty]⟩
  have hpath : ∀ name file m, ip.locator.find name = .ok file →
      Module.ofText file.path file.text = .ok m → OneLacking m.decls := by
    have hB : ∀ m ∈ (Module.ofText "overlay:B" "module B where\ny = 1\nz = y\n").toOption,
        OneLacking m.decls := by
      decide +kernel
    intro name file m hfile hm
    by_cases hname : "B" = name
    · subst hname
      obtain rfl : _ = file := Except.ok.inj hfile
      exact hB m (congrArg Except.toOption hm)
    · have hget : ip.locator.overlay.get? name = none := if_neg hname
      unfold Locator.find at hfile
      rw [hget] at hfile
      cases hf : ip.locator.filePath name with
      | error e => rw [hf] at hfile; cases hfile
      | ok path => rw [hf] at hfile; cases hfile
  have hone : ∀ (text : String) (history : History),
      (∀ f ∈ (Fragment.ofText fragmentSource text).toOption, OneLacking f.decls) →
      (∀ p ∈ (Interpreter.pieces 0 history.program).1, OneLacking p.decls) →
      OneLackingIn ip history text :=
    fun text history hf hp => ⟨fun f h => hf f (congrArg Except.toOption h), hp, hpath⟩
  have himport := (orders_unseen (f := start) rfl .refl (.refl w)).1 ip "import B" {} none
    List.mem_cons_self (hone _ _ (by decide +kernel) (by decide +kernel))
  have hunbound := (orders_unseen (f := start) rfl .refl (.refl w)).1 ip
    "f :: Int\ng :: Int\nx = y + B.y" ⟨["import B"]⟩ none List.mem_cons_self
    (hone _ _ (by decide +kernel) (by decide +kernel))
  have haccepted : Interpreter.AcceptedWith (fun _ l _ => l.modules.names = ["B"])
      ((ip.run (.ours (programOf "import B")) {} none).run w) := by
    decide +kernel
  have hrejected : (ip.run (.ours (programOf "f :: Int\ng :: Int\nx = y + B.y"))
      ⟨["import B"]⟩ none).Meets w (fun r _ => Family.made (.ok r) = []) fun _ _ => False := by
    decide +kernel
  obtain ⟨kind, l, w₁, hrun, hnames⟩ := haccepted.outcome
  obtain ⟨ds, w₂, hrun'⟩ : ∃ ds w₂, (ip.run (.ours (programOf "f :: Int\ng :: Int\nx = y + B.y"))
      ⟨["import B"]⟩ none).run w = (.ok (.rejected ds), w₂) := by
    unfold Act.Meets at hrejected
    generalize (ip.run _ _ _).run w = p at hrejected ⊢
    obtain ⟨_ | ⟨_, l⟩ | ds, w₂⟩ := p
    · cases hrejected
    · cases hrejected
    · exact ⟨ds, w₂, rfl⟩
  -- some outcome of the first run, whose loader has the names that the ordered run leads to
  obtain ⟨o, ho⟩ := himport.1
  have hwork : Works start ⟨o.2, Family.made o.1 ++ start.loaders⟩ :=
    .single (.run ip "import B" {} none List.mem_cons_self ho)
  have hagrees := (himport.2 o ho).1
  rw [hrun] at hagrees
  rw [hrun'] at hunbound
  cases hagrees with
  | @accepted _ _ l' _ w₁' ρ hold hsame =>
    have hloader : l' = l.rename ρ := hsame.loader
    have hload := (orders_unseen rfl hwork (.refl w₁')).2 ip.setting l' "B"
    refine ⟨ip, _, l', ds, List.mem_cons_self, ?_, hload.mono fun _ h => h.1,
      hunbound.mono fun o h => ?_⟩
    · rw [hloader, Loader.names_rename]
      exact hnames
    · cases h.1 with
      | rejected => rfl

end

end Unordered

end LazySession
