import LazySession.Proofs.Origin.Linking
import LazySession.Proofs.Origin.Texts
import LazySession.Proofs.Scope.Soundness

/-!
# Errors point into the texts of programs

Programs are run, modules are loaded, fields are read and values stored, in any order: `Ledger.Step`.
The ledger keeps the texts that every module is compiled from. `Ledger.errors_in_texts`: a runtime
error of loading a module, or of reading one of its fields, names a text of the module or of one that
its imports lead to, and points to an expression in that text. Beyond these there are only the texts
of values that the host has stored. The error of a thunk that needs its own value points to an
expression in one of the texts too, but may name another one of them.
-/

namespace LazySession

open ModuleCode (marks)

/-! ## Loaders in use -/

namespace Loader

section
variable {ls : List Loader} {S M : Marks} {L : Labels} {w : World} {l : Loader}

theorem Placed.extend (h : Placed ls S L w) (hc : Coherent ls [] w) (hl : l ∈ ls)
    (mods : List ModuleCode) : Placed ((l.extend mods w).1 :: ls) S L (l.extend mods w).2 := by
  obtain ⟨hsame, fresh, hcode, hclosed, hinst⟩ := Family.seen_extend hc hl mods
  have hheap : (l.extend mods w).2.heap = w.heap := by
    rw [Exchange.world_extend (hc.keyed l hl) mods]
  generalize l.extend mods w = p at *
  obtain ⟨l', w'⟩ := p
  simp only at hsame hcode hinst hheap ⊢
  refine ⟨hheap ▸ h.rests, fun l₁ hl₁ k inst hi => ?_⟩
  rcases List.mem_cons.mp hl₁ with rfl | hl₁
  · obtain ⟨hf, hi⟩ := hinst k inst hi
    rw [ModuleCode.marks_congr (· ∉ fresh) hcode hclosed hf]
    exact h.fields l hl k inst hi
  · obtain ⟨hcode₁, hinst₁⟩ := hsame l₁ hl₁
    rw [hinst₁] at hi
    rw [hcode₁]
    exact h.fields l₁ hl₁ k inst hi

theorem placed_load {set : Setting} (hlib : set.host.Relays) (h : Placed ls S L w)
    (hc : Coherent ls [] w) (hl : l ∈ ls) (name : String) :
    (l.load set name).Meets w (fun _ w' => Stays ls S L w')
      (fun e w' => Stays ls S L w' ∧ e.Inside (marks (l.code? w) name ∪ S)) := by
  refine Act.meets_bind (Act.meets_inquire fun patience => ?_)
  have h₁ : Placed ls S L { w with context := { w.context with patience } } :=
    h.setHeap (.refl L) h.rests rfl rfl
  refine ⟨?_, h₁.stays, Error.inside_of_eq_none rfl⟩
  exact placed_link hlib hl _ [] name [] _ L (hc.keeps_heap (.refl _ _) rfl rfl) nofun h₁

/-- What is read from an instance leads no further than the instance. -/
theorem placed_read {set : Setting} (hlib : set.host.Relays) (h : Placed ls S L w) {i : Instance}
    (hi : ∀ p ∈ i.fields, p.2.Inside L M) (field : String) :
    (i.read set field).Meets w
      (fun v w' => ∃ L', L.Extends L' ∧ Placed ls S L' w' ∧ ∀ u, v = .object u → u.Inside L' M)
      (fun e w' => Stays ls S L w' ∧ e.Inside M) := by
  refine Act.meets_bind (Act.meets_inquire fun patience => ?_)
  have h₁ : Placed ls S L { w with context := { w.context with patience } } :=
    h.setHeap (.refl L) h.rests rfl rfl
  refine ⟨?_, h₁.stays, Error.inside_of_eq_none rfl⟩
  split
  · exact Act.meets_throw ⟨h₁.stays, Error.inside_of_eq_none rfl⟩
  · rename_i v hv
    refine Act.meets_bind (Act.meets_evaluate ?_)
    generalize hs : Act.start 0 { w with context := { w.context with patience } } = s
    have hheap : s.heap = w.heap := by rw [← hs]; rfl
    have hr := h.rests
    rw [← hheap] at hr
    have hidle := EvalState.idle_force set hr.idle v
    obtain ⟨L', hL, hh, hend⟩ :=
      EvalState.inside_force hlib hr.inside hr.idle (hi _ (Table.mem_of_get? hv))
    generalize s.force set v = p at hidle hh hend ⊢
    obtain ⟨r, s'⟩ := p
    have h₂ : Placed ls S L' (Act.finish { w with context := { w.context with patience } } s') :=
      h₁.setHeap hL ⟨hh, hidle⟩ rfl rfl
    cases r with
    | ok v =>
      exact Act.meets_get_bind (Act.meets_pure ⟨L', hL, h₂, fun u hu => hh.toHost hend hu⟩)
    | error e =>
      refine ⟨⟨L', hL, h₂⟩, fun err he => ?_⟩
      cases he
      exact hend

theorem Placed.widen (h : Placed ls S L w) (N : Marks) : Placed ls (S ∪ N) (L.widen (S ∪ N)) w := by
  refine ⟨⟨h.rests.inside.widen _, h.rests.idle⟩, fun l hl k inst hi p hp => ?_⟩
  refine ((h.fields l hl k inst hi p hp).widen (S ∪ N)).mono (.refl _) ?_
  rw [Set.union_assoc, ← Set.union_assoc S S N, Set.union_self]

theorem placed_write {N : Marks} (h : Placed ls S L w) (i : Instance) (field : String)
    {v : HostValue} (hv : v.toValue.Inside L (N ∪ S)) :
    Placed ls (S ∪ N) (L.widen (S ∪ N)) ((i.write field v).run w).2 := by
  have hw := h.widen N
  refine Act.Meets.world (P := fun w' => Placed ls (S ∪ N) (L.widen (S ∪ N)) w') ?_
  unfold Instance.write
  split
  · exact Act.meets_throw hw
  · refine Act.meets_get_bind ?_
    split
    · rename_i id _
      refine Act.meets_set (hw.setHeap (.refl _) ⟨?_, hw.rests.idle.of_eq rfl⟩ rfl rfl)
      refine hw.rests.inside.setCell id fun K hK => ?_
      obtain ⟨K', -, rfl⟩ := Option.map_eq_some_iff.mp hK
      refine (hv.widen (S ∪ N)).mono (.refl _) ?_
      rw [Set.union_comm N S, Set.union_self]
      exact Set.subset_union_right
    · exact Act.meets_throw hw

end

end Loader

/-! ## Editions -/

/-- A loader, and the texts that each of its modules is compiled from. -/
structure Edition where
  loader : Loader
  texts : String → Texts

namespace Edition

/-- The texts of the modules that imports of `name` lead to, its own among them. -/
def sources (s : Edition) (w : World) (name : String) : Texts :=
  {t | ∃ n c, ModuleCode.Leads (s.loader.code? w) name n ∧ s.loader.code? w n = some c ∧
    t ∈ s.texts n}

/-- All code is written in the texts. -/
def Written (s : Edition) (w : World) : Prop :=
  ∀ n c, s.loader.code? w n = some c → c.Lies (s.texts n).marks

theorem sources_subset {s : Edition} {w : World} {name : String}
    (h : (s.loader.code? w name).map (·.imports) = some []) : s.sources w name ⊆ s.texts name := by
  rintro t ⟨n, c, hn, -, ht⟩
  rcases hn.cases_head with rfl | ⟨m, ⟨c', hc', hm⟩, -⟩
  · exact ht
  · rw [hc', Option.map_some, Option.some.injEq] at h
    rw [h] at hm
    cases hm

theorem Written.marks_subset {s : Edition} {w : World} (h : s.Written w) (name : String) :
    marks (s.loader.code? w) name ⊆ (s.sources w name).marks := by
  rintro ⟨source, p⟩ ⟨n, c, d, hn, hc, hd, rfl, hp⟩
  have hsub : s.texts n ⊆ s.sources w name := fun t ht => ⟨n, c, hn, hc, ht⟩
  exact Texts.marks_mono hsub (h n c hc d hd p hp)

end Edition

/-- Loaders in use, the values of the language that the host has been given, with the texts that they
may lead to, and the texts of those that it has stored. -/
structure Ledger where
  world : World
  editions : List Edition
  given : List (Value × Texts)
  stored : Texts

namespace Ledger

open Interpreter (programOf suppliedLoader Truthful)

/-- Nothing has been run yet. -/
def start (cache : Cache Parsed) : Ledger := ⟨{ cache }, [⟨.empty, fun _ => ∅⟩], [], ∅⟩

def family (x : Ledger) : Family := ⟨x.world, x.editions.map (·.loader)⟩

/-- What the host stores is its own or was given to it. -/
inductive Storable (given : List (Value × Texts)) : HostValue → Texts → Prop
  | nil : Storable given .nil ∅
  | data (d : HostData) : Storable given (.data d) ∅
  | alone {v : Value} (hv : v.isAlone) : Storable given (.object v) ∅
  | given {v : Value} {T : Texts} (hv : (v, T) ∈ given) : Storable given (.object v) T

/-- A program is accepted, a module is loaded, a field of a linked module is read, or a value is
stored in a cell. All but the first may fail, and there may be other work in between. -/
inductive Step : Ledger → Ledger → Prop
  | run {x : Ledger} {s : Edition} (hs : s ∈ x.editions) (ip : Interpreter) (text : String)
    (history : History) {loader : Option (Supplied Loader)} (hl : suppliedLoader loader = s.loader)
    {kind : SourceKind} {l : Loader} {w : World}
    (hrun : (ip.run (.ours (programOf text)) history loader).run x.world =
      (.ok (.accepted kind l), w)) :
    Step x { x with
      world := w
      editions := ⟨l, ip.textsAfter (s.loader.code? x.world) s.texts history text kind⟩ ::
        x.editions }
  | load {x : Ledger} {s : Edition} (hs : s ∈ x.editions) {set : Setting} (hlib : set.host.Relays)
    (name : String) : Step x { x with world := ((s.loader.load set name).run x.world).2 }
  | read {x : Ledger} {s : Edition} (hs : s ∈ x.editions) {name : String} {i : Instance}
    (hi : s.loader.instance? x.world name = some i) {set : Setting} (hlib : set.host.Relays)
    (field : String) :
    Step x { x with
      world := ((i.read set field).run x.world).2
      given := (Exchange.received ((i.read set field).run x.world).1).map
        (·, s.sources x.world name ∪ x.stored) ++ x.given }
  | write {x : Ledger} (i : Instance) (field : String) {v : HostValue} {T : Texts}
    (hv : Storable x.given v T) :
    Step x { x with world := ((i.write field v).run x.world).2, stored := x.stored ∪ T }
  | other {x : Ledger} {cache : Cache Parsed} (hc : Truthful cache) (context : Context) :
    Step x { x with world := { x.world with cache, context } }

/-- Any number of steps. -/
abbrev Steps : Ledger → Ledger → Prop := Relation.ReflTransGen Step

/-- All code is written in the texts that the ledger keeps, and nothing leads to other code. -/
structure Sourced (x : Ledger) : Prop where
  coherent : x.family.Coherent
  cache : Truthful x.world.cache
  written : ∀ s ∈ x.editions, s.Written x.world
  placed : ∃ L, Loader.Placed x.family.loaders x.stored.marks L x.world ∧
    ∀ p ∈ x.given, p.1.Inside L (p.2.marks ∪ x.stored.marks)

section
variable {x y : Ledger} {s : Edition}

theorem Sourced.start {cache : Cache Parsed} (hc : Truthful cache) : (start cache).Sourced where
  coherent := Family.coherent_empty _
  cache := hc
  written s hs n c h := by
    rw [List.mem_singleton.mp hs] at h
    cases h
  placed := by
    refine ⟨.empty, ⟨⟨Heap.inside_empty _, ?_⟩, fun l hl k inst h => ?_⟩, nofun⟩
    · rintro id ⟨t, ht, -⟩
      cases ht
    · rw [List.mem_singleton.mp hl] at h
      cases h

theorem mem_loaders (hs : s ∈ x.editions) : s.loader ∈ x.family.loaders := List.mem_map_of_mem hs

/-! ## Runs -/

theorem Sourced.run (hx : x.Sourced) (hs : s ∈ x.editions) (ip : Interpreter) (text : String)
    (history : History) {loader : Option (Supplied Loader)} (hl : suppliedLoader loader = s.loader)
    {kind : SourceKind} {l : Loader} {w : World}
    (hrun : (ip.run (.ours (programOf text)) history loader).run x.world =
      (.ok (.accepted kind l), w)) :
    Sourced { x with
      world := w
      editions := ⟨l, ip.textsAfter (s.loader.code? x.world) s.texts history text kind⟩ ::
        x.editions } := by
  obtain ⟨cache, mods, hcache, hverdict, hmade⟩ := Interpreter.run_accepted hx.cache hrun
  rw [hl] at hverdict hmade
  obtain ⟨L, hplaced, hgiven⟩ := hx.placed
  have hmem := mem_loaders hs
  -- texts are read first
  have hread : Family.Coherent ⟨x.world.read cache, x.family.loaders⟩ :=
    Loader.Coherent.keeps_heap hx.coherent (.refl _ _) rfl rfl
  have hplaced' : Loader.Placed x.family.loaders x.stored.marks L (x.world.read cache) :=
    hplaced.setHeap (.refl L) hplaced.rests rfl rfl
  have hkeyed := hread.keyed _ hmem
  have hcoherent := Family.coherent_extend hread hmem mods
  have hplaced'' := hplaced'.extend hread hmem mods
  have hsame := (Family.seen_extend hread hmem mods).1
  have hcode := Loader.code?_extend hkeyed mods
  have hworld := Exchange.world_extend hkeyed mods
  rw [← hmade] at hcoherent hplaced'' hsame hcode hworld
  refine ⟨hcoherent, ?_, fun s' hs' n c hc => ?_, L, hplaced'', hgiven⟩
  · simp only at hworld ⊢
    rw [hworld]
    exact hcache
  · rcases List.mem_cons.mp hs' with rfl | hs'
    · rw [hcode] at hc
      exact Interpreter.lies_of_verdict hverdict (hx.written s hs) hc
    · rw [(hsame s'.loader (mem_loaders hs')).1] at hc
      exact hx.written s' hs' n c hc

/-! ## Other steps -/

/-- The labels are enough for the loaders and for what the host has been given. -/
def Covered (x : Ledger) (given : List (Value × Texts)) (S : Marks) (w : World) : Prop :=
  ∃ L, Loader.Placed x.family.loaders S L w ∧ ∀ p ∈ given, p.1.Inside L (p.2.marks ∪ S)

theorem Covered.stays {given : List (Value × Texts)} {S : Marks} {L : Labels} {w : World}
    (hgiven : ∀ p ∈ given, p.1.Inside L (p.2.marks ∪ S))
    (h : Loader.Stays x.family.loaders S L w) : x.Covered given S w := by
  obtain ⟨L', hL, h'⟩ := h
  exact ⟨L', h', fun p hp => (hgiven p hp).mono hL subset_rfl⟩

/-- No loader has been made, so the code of all of them is the same. -/
theorem Sourced.of_later {w : World} {given : List (Value × Texts)} {stored : Texts} (hx : x.Sourced)
    (hlater : Family.Coherent ⟨w, x.family.loaders⟩ ∧ Family.Later x.family ⟨w, x.family.loaders⟩)
    (hcache : Truthful w.cache) (hcovered : x.Covered given stored.marks w) :
    Sourced ⟨w, x.editions, given, stored⟩ := by
  refine ⟨hlater.1, hcache, fun s hs n c hc => ?_, hcovered⟩
  rw [Loader.code?_keeps (hx.coherent.keyed _ (mem_loaders hs)) hlater.2.world] at hc
  exact hx.written s hs n c hc

theorem Sourced.marks_subset (hx : x.Sourced) (hs : s ∈ x.editions) (name : String) :
    marks (s.loader.code? x.world) name ∪ x.stored.marks ⊆
      (s.sources x.world name ∪ x.stored).marks := by
  rw [Texts.marks_union]
  exact Set.union_subset_union_left _ ((hx.written s hs).marks_subset name)

theorem Sourced.load (hx : x.Sourced) (hs : s ∈ x.editions) {set : Setting}
    (hlib : set.host.Relays) (name : String) :
    Sourced { x with world := ((s.loader.load set name).run x.world).2 } := by
  have hmem := mem_loaders hs
  obtain ⟨L, hplaced, hgiven⟩ := hx.placed
  refine hx.of_later (Family.coherent_load hx.coherent hmem set name) ?_ ?_
  · have h := Act.Meets.world (P := fun w' => w'.cache = x.world.cache)
      ((Loader.kept_cache set).load s.loader name x.world)
    rw [h]
    exact hx.cache
  · refine Act.Meets.world (P := fun w' => x.Covered x.given x.stored.marks w') ?_
    exact (Loader.placed_load hlib hplaced hx.coherent hmem name).mono
      (fun _ _ h => .stays hgiven h) fun _ _ h => .stays hgiven h.1

/-- The fields of a linked module lead to its texts. -/
theorem Sourced.fields (hx : x.Sourced) (hs : s ∈ x.editions) {name : String} {i : Instance}
    (hi : s.loader.instance? x.world name = some i) {L : Labels}
    (h : Loader.Placed x.family.loaders x.stored.marks L x.world) :
    ∀ p ∈ i.fields, p.2.Inside L (s.sources x.world name ∪ x.stored).marks :=
  fun p hp => (h.fields _ (mem_loaders hs) name i hi p hp).mono (.refl L) (hx.marks_subset hs name)

theorem Sourced.read (hx : x.Sourced) (hs : s ∈ x.editions) {name : String} {i : Instance}
    (hi : s.loader.instance? x.world name = some i) {set : Setting} (hlib : set.host.Relays)
    (field : String) :
    Sourced { x with
      world := ((i.read set field).run x.world).2
      given := (Exchange.received ((i.read set field).run x.world).1).map
        (·, s.sources x.world name ∪ x.stored) ++ x.given } := by
  obtain ⟨L, hplaced, hgiven⟩ := hx.placed
  have hread := Loader.placed_read hlib hplaced (hx.fields hs hi hplaced) field
  have hrest := Act.Meets.world (P := fun w' => w'.cache = x.world.cache)
    ((Exchange.meets_read_rest i set field).mono (fun _ _ h => h.2.2) fun _ _ h => h.2.2)
  refine hx.of_later (Family.coherent_read hx.coherent i set field) (hrest ▸ hx.cache) ?_
  unfold Act.Meets at hread
  generalize (i.read set field).run x.world = p at hread ⊢
  obtain ⟨r, w'⟩ := p
  cases r with
  | error e => exact .stays hgiven hread.1
  | ok v =>
    obtain ⟨L', hL, h', hv⟩ := hread
    refine ⟨L', h', fun p hp => ?_⟩
    rcases List.mem_append.mp hp with hp | hp
    · obtain ⟨u, hu, rfl⟩ := List.mem_map.mp hp
      cases v with
      | object u' =>
        rw [List.mem_singleton.mp hu]
        exact (hv u' rfl).mono (.refl L') Set.subset_union_left
      | _ => cases hu
    · exact (hgiven p hp).mono hL subset_rfl

theorem Sourced.write (hx : x.Sourced) (i : Instance) (field : String) {v : HostValue} {T : Texts}
    (hv : Storable x.given v T) :
    Sourced { x with world := ((i.write field v).run x.world).2, stored := x.stored ∪ T } := by
  obtain ⟨L, hplaced, hgiven⟩ := hx.placed
  have hrest := Act.Meets.world (P := fun w' => w'.cache = x.world.cache)
    (Exchange.keepsCache_write i field v x.world)
  refine hx.of_later (Family.coherent_write hx.coherent i field v) (hrest ▸ hx.cache) ?_
  have hval : v.toValue.Inside L (T.marks ∪ x.stored.marks) := by
    cases hv with
    | nil => exact .alone rfl
    | data d => exact .alone rfl
    | alone hv => exact .alone hv
    | given hv => exact hgiven _ hv
  rw [Texts.marks_union]
  refine ⟨_, Loader.placed_write hplaced i field hval, fun p hp => ?_⟩
  refine ((hgiven p hp).widen _).mono (.refl _) ?_
  rw [Set.union_assoc, ← Set.union_assoc x.stored.marks, Set.union_self]

theorem Sourced.step (hx : x.Sourced) (h : Step x y) : y.Sourced := by
  cases h with
  | run hs ip text history hl hrun => exact hx.run hs ip text history hl hrun
  | load hs hlib name => exact hx.load hs hlib name
  | read hs hi hlib field => exact hx.read hs hi hlib field
  | write i field hv => exact hx.write i field hv
  | other hc context =>
    obtain ⟨L, hplaced, hgiven⟩ := hx.placed
    exact hx.of_later (Family.coherent_heap hx.coherent (.refl _ _) rfl rfl) hc
      ⟨L, hplaced.setHeap (.refl L) hplaced.rests rfl rfl, hgiven⟩

theorem Sourced.steps (hx : x.Sourced) (h : Steps x y) : y.Sourced := by
  induction h with
  | refl => exact hx
  | tail _ step ih => exact ih.step step

/-! ## Errors -/

theorem Sourced.read_errors (hx : x.Sourced) (hs : s ∈ x.editions) {name : String} {i : Instance}
    (hi : s.loader.instance? x.world name = some i) {set : Setting} (hlib : set.host.Relays)
    (field : String) :
    (i.read set field).Meets x.world (fun _ _ => True)
      fun e _ => e.Inside (s.sources x.world name ∪ x.stored).marks := by
  obtain ⟨L, hplaced, -⟩ := hx.placed
  exact (Loader.placed_read hlib hplaced (hx.fields hs hi hplaced) field).mono
    (fun _ _ _ => trivial) fun _ _ h => h.2

theorem Sourced.load_errors (hx : x.Sourced) (hs : s ∈ x.editions) {set : Setting}
    (hlib : set.host.Relays) (name : String) :
    (s.loader.load set name).Meets x.world (fun _ _ => True)
      fun e _ => e.Inside (s.sources x.world name ∪ x.stored).marks := by
  obtain ⟨L, hplaced, -⟩ := hx.placed
  exact (Loader.placed_load hlib hplaced hx.coherent (mem_loaders hs) name).mono
    (fun _ _ _ => trivial) fun _ _ h => h.2.mono (hx.marks_subset hs name)

/-- **Errors point into the texts of the program.** A runtime error of loading a module, or of reading
a field of it, points to an expression in the text that it names. That is a text of the module, of one
that its imports lead to, or of a value that the host has stored. An error of a thunk that needs its
own value names one of these texts and points to an expression in one of them. -/
theorem errors_in_texts {cache : Cache Parsed} (hc : Truthful cache) {x : Ledger}
    (hx : Steps (start cache) x) {s : Edition} (hs : s ∈ x.editions) {set : Setting}
    (hlib : set.host.Relays) (name : String) :
    ((s.loader.load set name).Meets x.world (fun _ _ => True)
      fun e _ => e.Inside (s.sources x.world name ∪ x.stored).marks) ∧
    ∀ i, s.loader.instance? x.world name = some i → ∀ field,
      (i.read set field).Meets x.world (fun _ _ => True)
        fun e _ => e.Inside (s.sources x.world name ∪ x.stored).marks := by
  have hsourced := (Sourced.start hc).steps hx
  exact ⟨hsourced.load_errors hs hlib name, fun i hi => hsourced.read_errors hs hi hlib⟩

theorem not_mem_marks_third (symbol : Symbol) : ("<definitions:3>", ⟨1, 5⟩) ∉
    (Interpreter.programTexts ⟨["\n\ny = x", "x = y", "y = 1"]⟩ "x" (.expression symbol)).marks := by
  have hread : (match Fragment.ofText "<definitions:3>" "\n\ny = x" with
      | .ok f => f.exprs.all fun e => match e with
        | .var p _ => p = ⟨3, 5⟩
        | _ => false
      | .error _ => false) = true := by
    decide +kernel
  rintro ⟨text, f, e, ht, hf, he, hp⟩
  have ht : (∃ n, ["y = 1", "x = y", "\n\ny = x"][n]? = some text ∧
      "<definitions:3>" = Interpreter.definitionSource n) ∨
      ("<definitions:3>", text) = (Interpreter.fragmentSource, "x") := ht
  rcases ht with ⟨n, hn, hsource⟩ | hsource
  · match n with
    | 0 | 1 => exact absurd hsource (by decide +kernel)
    | 2 =>
      cases hn
      rw [hf] at hread
      have hvar := List.all_eq_true.mp hread e he
      cases e with
      | var p name =>
        rw [of_decide_eq_true hvar, Expr.places_var] at hp
        exact absurd (show (⟨1, 5⟩ : Pos) = ⟨3, 5⟩ from hp) (by decide)
      | _ => cases hvar
    | n + 3 => cases hn
  · exact absurd (Prod.mk.inj hsource).1 (by decide +kernel)

/-- The third definition makes a loop of the other two. The error names the third one, but nothing
stands there where it points to. A division by zero points to where it stands. -/
theorem errors_in_texts_loop :
    (∃ (x : Ledger) (s : Edition) (name : String) (i : Instance) (e : Error) (w : World)
      (err : RuntimeError), Steps (start .disabled) x ∧ s ∈ x.editions ∧
      s.loader.instance? x.world name = some i ∧
      (i.read ⟨.empty, 10⟩ Interpreter.resultField).run x.world = (.error e, w) ∧
      e.runtime? = some err ∧ err.place.source = "<definitions:3>" ∧ err.pos = ⟨1, 5⟩ ∧
      err.Inside (s.sources x.world name ∪ x.stored).marks ∧
      (err.place.source, err.pos) ∉ (s.sources x.world name ∪ x.stored).marks) ∧
    ∃ (x : Ledger) (s : Edition) (name : String) (i : Instance) (e : Error) (w : World)
      (err : RuntimeError), Steps (start .disabled) x ∧ s ∈ x.editions ∧
      s.loader.instance? x.world name = some i ∧
      (i.read ⟨.empty, 10⟩ Interpreter.resultField).run x.world = (.error e, w) ∧
      e.runtime? = some err ∧ err.fault = .divisionByZero ∧ err.pos = ⟨1, 7⟩ ∧
      (err.place.source, err.pos) ∈ (s.sources x.world name ∪ x.stored).marks := by
  let ip : Interpreter := ⟨⟨[], ".mhs", []⟩, ⟨.empty, 10⟩⟩
  have hlib : ip.setting.host.Relays := fun _ _ _ vs hv v hm => by
    cases hv
    cases hm
  -- of a program that imports nothing and fails with `P`, the artifact's texts are all there are
  have hfails : ∀ (texts : List String) (text : String) (P : RuntimeError → Prop),
      Interpreter.AcceptedWith (fun kind l w => ∃ name ∈ Interpreter.artifact? kind,
        kind = .expression ⟨name, Interpreter.resultField⟩ ∧
        (l.code? ((l.load ip.setting name).run w).2 name).map (·.imports) = some [] ∧
        ∃ i ∈ l.instance? ((l.load ip.setting name).run w).2 name,
          (i.read ip.setting Interpreter.resultField).Meets ((l.load ip.setting name).run w).2
            (fun _ _ => False) fun e _ => ∃ err ∈ e.runtime?, P err)
        ((ip.run (.ours (programOf text)) ⟨texts⟩ none).run { cache := .disabled }) →
      ∃ (x : Ledger) (s : Edition) (name : String) (i : Instance) (e : Error) (w : World)
        (err : RuntimeError), Steps (start .disabled) x ∧ s ∈ x.editions ∧
        s.loader.instance? x.world name = some i ∧
        (i.read ip.setting Interpreter.resultField).run x.world = (.error e, w) ∧
        e.runtime? = some err ∧ P err ∧ err.Inside (s.sources x.world name ∪ x.stored).marks ∧
        (s.sources x.world name ∪ x.stored).marks ⊆
          (Interpreter.programTexts ⟨texts⟩ text (.expression ⟨name, Interpreter.resultField⟩)).marks := by
    intro texts text P hrun
    obtain ⟨_, l, w, hr, name, -, rfl, hcode, i, hi, hread⟩ := hrun.outcome
    have hrun' : Step (start .disabled) _ := .run List.mem_cons_self ip text ⟨texts⟩ rfl hr
    have hsteps := (Relation.ReflTransGen.single hrun').tail (.load List.mem_cons_self hlib name)
    have hin := (errors_in_texts (Interpreter.truthful_empty rfl) hsteps List.mem_cons_self hlib
      name).2 i hi Interpreter.resultField
    unfold Act.Meets at hread hin
    generalize hend : (i.read ip.setting Interpreter.resultField).run _ = p at hread
    rw [hend] at hin
    obtain ⟨r, w'⟩ := p
    cases r with
    | ok v => cases hread
    | error e =>
      obtain ⟨err, herr, hP⟩ := hread
      refine ⟨_, _, name, i, e, w', err, hsteps, List.mem_cons_self, hi, hend, herr, hP, hin err herr, ?_⟩
      refine Texts.marks_mono ?_
      rintro t (ht | ht)
      · have htexts : t ∈ ip.textsAfter _ _ ⟨texts⟩ text (.expression ⟨name, _⟩) name :=
          Edition.sources_subset hcode ht
        rwa [Interpreter.textsAfter_artifact rfl] at htexts
      · cases ht
  constructor
  · obtain ⟨x, s, name, i, e, w, err, hsteps, hs, hi, hend, herr, ⟨hsource, hpos⟩, hin, hmarks⟩ :=
      hfails ["\n\ny = x", "x = y", "y = 1"] "x"
        (fun err => err.place.source = "<definitions:3>" ∧ err.pos = ⟨1, 5⟩) (by decide +kernel)
    refine ⟨x, s, name, i, e, w, err, hsteps, hs, hi, hend, herr, hsource, hpos, hin, ?_⟩
    rw [hsource, hpos]
    exact fun hm => not_mem_marks_third _ (hmarks hm)
  · obtain ⟨x, s, name, i, e, w, err, hsteps, hs, hi, hend, herr, ⟨hfault, hpos⟩, hin, -⟩ :=
      hfails ["y = 1"] "y + 1 / 0" (fun err => err.fault = .divisionByZero ∧ err.pos = ⟨1, 7⟩)
        (by decide +kernel)
    exact ⟨x, s, name, i, e, w, err, hsteps, hs, hi, hend, herr, hfault, hpos, hin.place (by rw [hfault]; rfl)⟩

end

end Ledger

end LazySession
