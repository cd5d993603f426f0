import LazySession.Proofs.Interpreter.Widened

/-!
# What a program has to be like to pass

`Interpreter.accepts_wellFormed`: compiling accepts the well-formed programs and no others, and what
comes out has of each name the binding that stands last.
-/

namespace LazySession

/-! ## Types -/

namespace TypeExpr

/-- Constructors are known and have as many arguments as they take, and nothing else has any. -/
inductive WellKinded : TypeExpr → Prop
  | con {pos : Pos} {name : String} (h : arity? name = some 0) : WellKinded (.con pos name)
  | var {pos : Pos} {name : String} : WellKinded (.var pos name)
  | unit {pos : Pos} : WellKinded (.unit pos)
  | app {pos : Pos} {name : String} {args : List TypeExpr} (h : arity? name = some args.length)
    (ha : ∀ t ∈ args, WellKinded t) : WellKinded (.app (.con pos name) args)
  | arrow {dom cod : TypeExpr} (hd : WellKinded dom) (hc : WellKinded cod) :
    WellKinded (.arrow dom cod)

theorem checkCon_eq_nil_iff {pos : Pos} {name : String} {args : Nat} :
    checkCon pos name args = [] ↔ arity? name = some args := by
  unfold checkCon
  cases arity? name with
  | none => simp
  | some n => by_cases h : n = args <;> simp [h]

mutual

theorem check_eq_nil : ∀ t : TypeExpr, t.check = [] ↔ t.WellKinded
  | .con _ _ => by
    rw [check, checkCon_eq_nil_iff]
    exact ⟨.con, fun | .con h => h⟩
  | .var _ _ => by simpa [check] using .var
  | .unit _ => by simpa [check] using .unit
  | .app head args => by
    cases head with
    | con _ _ =>
      rw [check, List.append_eq_nil_iff, checkAll_eq_nil args, checkCon_eq_nil_iff]
      exact ⟨fun h => .app h.1 h.2, fun | .app h ha => ⟨h, ha⟩⟩
    -- only a constructor takes arguments
    | _ => exact ⟨fun h => by simp [check] at h, nofun⟩
  | .arrow dom cod => by
    rw [check, List.append_eq_nil_iff, check_eq_nil dom, check_eq_nil cod]
    exact ⟨fun h => .arrow h.1 h.2, fun | .arrow hd hc => ⟨hd, hc⟩⟩

theorem checkAll_eq_nil : ∀ ts : List TypeExpr, checkAll ts = [] ↔ ∀ t ∈ ts, t.WellKinded
  | [] => by simp [checkAll]
  | t :: ts => by
    rw [checkAll, List.append_eq_nil_iff, check_eq_nil t, checkAll_eq_nil ts, List.forall_mem_cons]

end

end TypeExpr

/-! ## One piece -/

namespace Decl

/-- The names that a declaration gives a type. -/
def signed : Decl → List String
  | signature _ names _ => names
  | _ => []

def WellKinded : Decl → Prop
  | signature _ _ type => type.WellKinded
  | _ => True

end Decl

namespace Piece

/-- The names that have a signature, as often as they have one. -/
def signed (p : Piece) : List String := p.decls.flatMap Decl.signed

/-- The names that are bound, as often as they are. -/
def bound (p : Piece) : List String := p.bindings.map (·.name)

/-- The type that a name has by its signature. -/
def type? (p : Piece) (x : String) : Option TypeExpr :=
  p.decls.findSome? fun
    | .signature _ names type => if x ∈ names then some type else none
    | _ => none

structure WellFormed (p : Piece) : Prop where
  signed : p.signed.Nodup
  bound : p.bound.Nodup
  accompanied : p.signed ⊆ p.bound
  kinded : ∀ d ∈ p.decls, d.WellKinded

theorem duplicates_eq_nil {pos : Pos} {names : List String} : ∀ {sigs : List String},
    remark.duplicates pos sigs names = [] ↔ names.Nodup ∧ ∀ x ∈ names, x ∉ sigs := by
  induction names with
  | nil => simp [remark.duplicates]
  | cons n names ih =>
    intro sigs
    rw [remark.duplicates]
    by_cases hn : n ∈ sigs
    · simp [hn]
    · simp only [List.contains_eq_mem, hn, decide_false, Bool.false_eq_true, if_false, ih,
        List.nodup_cons, List.mem_cons, not_or]
      grind

/-- Nothing is said about declarations in front of which `sigs` have signatures and `bound` have
bindings. -/
theorem remarksFrom_eq_nil {ds : List Decl} : ∀ {sigs bound : List String},
    remarksFrom sigs bound ds = [] ↔
      ((ds.flatMap Decl.signed).Nodup ∧ ∀ x ∈ ds.flatMap Decl.signed, x ∉ sigs) ∧
      (((ds.filterMap Decl.binding?).map (·.name)).Nodup ∧
        ∀ x ∈ (ds.filterMap Decl.binding?).map (·.name), x ∉ bound) ∧
      ∀ d ∈ ds, d.WellKinded := by
  induction ds with
  | nil => simp [remarksFrom]
  | cons d ds ih =>
    intro sigs bound
    cases d with
    | importing pos mod =>
      rw [List.filterMap_cons_none rfl]
      simp only [remarksFrom, remark, List.nil_append, ih, List.flatMap_cons, Decl.signed,
        List.forall_mem_cons, Decl.WellKinded, true_and]
    | signature pos names type =>
      rw [List.filterMap_cons_none rfl]
      simp only [remarksFrom, remark, List.append_eq_nil_iff, TypeExpr.check_eq_nil,
        duplicates_eq_nil, ih, List.flatMap_cons, Decl.signed, List.nodup_append, List.mem_append,
        List.forall_mem_cons, Decl.WellKinded]
      generalize ds.flatMap Decl.signed = rest
      grind
    | binding b =>
      have hhead : remark sigs bound (.binding b) = [] ↔ b.name ∉ bound := by
        by_cases hb : b.name ∈ bound <;> simp [remark, hb]
      have hrest : (.binding b :: ds).filterMap Decl.binding? = b :: ds.filterMap Decl.binding? := rfl
      rw [hrest]
      simp only [remarksFrom, List.append_eq_nil_iff, hhead, ih, List.flatMap_cons, Decl.signed,
        List.nil_append, List.map_cons, List.nodup_cons, List.mem_cons, not_or, Decl.WellKinded]
      generalize (ds.filterMap Decl.binding?).map (·.name) = rest
      grind

theorem get?_signatures (p : Piece) (x : String) :
    (p.signatures.get? x).map (·.2) = p.type? x := by
  have inner : ∀ (pos : Pos) (type : TypeExpr) (names : List String) (sigs : Table (Pos × TypeExpr)),
      Table.get? (names.foldl (fun sigs n => if sigs.has n then sigs else sigs.put n (pos, type)) sigs)
        x = (sigs.get? x).or (if x ∈ names then some (pos, type) else none) := by
    intro pos type names
    induction names with
    | nil => simp
    | cons n names ih =>
      intro sigs
      rw [List.foldl_cons, ih]
      by_cases hx : x = n
      · subst hx
        cases hget : sigs.get? x <;> simp [Table.has, hget, Table.get?_put]
      · have hput : Table.get? (sigs.put n (pos, type)) x = sigs.get? x := by
          rw [Table.get?_put, if_neg (Ne.symm hx)]
        by_cases hn : sigs.has n <;> simp [hn, hput, hx]
  have outer : ∀ (ds : List Decl) (sigs : Table (Pos × TypeExpr)),
      (Table.get? (ds.foldl (fun sigs d => match d with
        | .signature pos names type =>
          names.foldl (fun sigs n => if sigs.has n then sigs else sigs.put n (pos, type)) sigs
        | _ => sigs) sigs) x).map (·.2) = ((sigs.get? x).map (·.2)).or (ds.findSome? fun
          | .signature _ names type => if x ∈ names then some type else none
          | _ => none) := by
    intro ds
    induction ds with
    | nil => simp
    | cons d ds ih =>
      intro sigs
      rw [List.foldl_cons, ih]
      cases d with
      | signature pos names type =>
        simp only [inner, List.findSome?_cons]
        by_cases hx : x ∈ names <;> cases sigs.get? x <;> simp [hx]
      | _ => rfl
  exact outer p.decls []

theorem type?_isSome {p : Piece} {x : String} : (p.type? x).isSome ↔ x ∈ p.signed := by
  simp only [type?, signed, List.findSome?_isSome_iff, List.mem_flatMap]
  refine exists_congr fun d => and_congr_right fun _ => ?_
  cases d with
  | signature _ names _ => by_cases hx : x ∈ names <;> simp [Decl.signed, hx]
  | _ => simp [Decl.signed]

theorem names_signatures {p : Piece} {x : String} : x ∈ p.signatures.names ↔ x ∈ p.signed := by
  rw [← Table.get?_isSome, ← type?_isSome, ← get?_signatures, Option.isSome_map]

theorem unboundSignatures_eq_nil {p : Piece} : p.unboundSignatures = [] ↔ p.signed ⊆ p.bound := by
  simp only [unboundSignatures, List.filterMap_eq_nil_iff]
  constructor
  · intro h x hx
    obtain ⟨⟨n, pos, type⟩, hm, rfl⟩ := List.mem_map.mp (names_signatures.mpr hx)
    by_contra hb
    simpa [show n ∉ p.bindings.map (·.name) from hb] using h _ hm
  · rintro h ⟨n, pos, type⟩ hm
    have hb : n ∈ p.bindings.map (·.name) := h (names_signatures.mp (List.mem_map_of_mem hm))
    simp [List.contains_eq_mem, hb]

theorem diagnostics_eq_nil {p : Piece} : p.diagnostics = [] ↔ p.WellFormed := by
  rw [diagnostics, List.map_eq_nil_iff, List.append_eq_nil_iff, remarksFrom_eq_nil,
    unboundSignatures_eq_nil]
  constructor
  · rintro ⟨⟨⟨hs, -⟩, ⟨hb, -⟩, hk⟩, ha⟩
    exact ⟨hs, hb, ha, hk⟩
  · rintro ⟨hs, hb, ha, hk⟩
    exact ⟨⟨⟨hs, by simp⟩, ⟨hb, by simp⟩, hk⟩, ha⟩

end Piece

/-! ## Definitions -/

/-- The type that is checked when the value of a binding is there: the base type of its signature in
the same piece. A function is not checked. -/
def Piece.want (p : Piece) (b : Binding) : Option BaseType :=
  if b.params = [] then (p.type? b.name).bind TypeExpr.base? else none

namespace Program

/-- All bindings with the pieces that they stand in. -/
def written (ps : List Piece) : List (Piece × Binding) :=
  ps.flatMap fun p => p.bindings.map (p, ·)

/-- Of each name the binding that stands last. -/
def lasting : List (Piece × Binding) → List (Piece × Binding)
  | [] => []
  | b :: bs => if b.2.name ∈ bs.map (·.2.name) then lasting bs else b :: lasting bs

def definitionOf (b : Piece × Binding) : Definition := ⟨b.2, b.1.source, b.1.want b.2⟩

theorem mem_names_lasting {bs : List (Piece × Binding)} {x : String} :
    x ∈ (lasting bs).map (·.2.name) ↔ x ∈ bs.map (·.2.name) := by
  induction bs with
  | nil => rfl
  | cons b bs ih =>
    rw [lasting]
    split <;> grind

theorem definitions_piece (p : Piece) :
    p.definitions = (p.bindings.map (p, ·)).map definitionOf := by
  rw [Piece.definitions, List.map_map]
  refine List.map_congr_left fun b _ => ?_
  have hwant : ((p.signatures.get? b.name).bind fun q => q.2.base?) =
      (p.type? b.name).bind TypeExpr.base? := by
    rw [← Piece.get?_signatures]
    cases p.signatures.get? b.name <;> rfl
  simp [definitionOf, Piece.want, hwant]

theorem foldl_addDefinition (bs : List (Piece × Binding)) : ∀ done : List Definition,
    (bs.map definitionOf).foldl addDefinition done =
      done.filter (fun d => d.binding.name ∉ bs.map (·.2.name)) ++ (lasting bs).map definitionOf := by
  induction bs with
  | nil => simp [lasting]
  | cons b bs ih =>
    intro done
    rw [List.map_cons, List.foldl_cons, ih, addDefinition, lasting]
    have hname : (definitionOf b).binding.name = b.2.name := rfl
    have hfilter : (done.filter (·.binding.name ≠ (definitionOf b).binding.name)).filter
        (fun d => d.binding.name ∉ bs.map (·.2.name)) =
          done.filter (fun d => d.binding.name ∉ (b :: bs).map (·.2.name)) := by
      rw [List.filter_filter]
      refine List.filter_congr fun d _ => ?_
      simp only [hname, List.map_cons, List.mem_cons, not_or, Bool.decide_and, ne_eq]
      exact Bool.and_comm _ _
    rw [List.filter_append, hfilter]
    by_cases hb : b.2.name ∈ bs.map (·.2.name)
    · rw [List.filter_singleton, hname]
      simp [hb]
    · rw [List.filter_singleton, hname]
      simp [hb]

theorem definitions_eq (ps : List Piece) :
    definitions ps = (lasting (written ps)).map definitionOf := by
  have hwritten : ps.flatMap (·.definitions) = (written ps).map definitionOf := by
    rw [written, List.map_flatMap]
    exact List.flatMap_congr fun p _ => definitions_piece p
  rw [definitions, hwritten, foldl_addDefinition]
  rfl

/-! ## Imports -/

/-- The modules that a program imports, in the order in which it first does. -/
def modules (ps : List Piece) : List String :=
  (ps.flatMap fun p => p.decls.filterMap Decl.imported?).eraseDups

theorem imports_piece (p : Piece) : p.imports.map (·.2.2) = p.decls.filterMap Decl.imported? := by
  rw [Piece.imports, List.map_filterMap]
  refine List.filterMap_congr fun d _ => ?_
  cases d <;> rfl

theorem names_imports (ps : List Piece) : (imports ps).map (·.2.2) = modules ps := by
  have step : ∀ is seen : List (String × Pos × String),
      (is.foldl (fun seen i => if seen.any (·.2.2 == i.2.2) then seen else seen ++ [i]) seen).map
        (·.2.2) = seen.map (·.2.2) ++
          ((is.map (·.2.2)).filter (· ∉ seen.map (·.2.2))).eraseDups := by
    intro is
    induction is with
    | nil => simp
    | cons i is ih =>
      intro seen
      rw [List.foldl_cons, ih]
      by_cases hi : i.2.2 ∈ seen.map (·.2.2)
      · have hany : seen.any (·.2.2 == i.2.2) = true := by
          obtain ⟨j, hj, he⟩ := List.mem_map.mp hi
          exact List.any_eq_true.mpr ⟨j, hj, by simp [he]⟩
        rw [if_pos hany, List.map_cons, List.filter_cons_of_neg (by simpa using hi)]
      · have hany : ¬ seen.any (·.2.2 == i.2.2) = true := by
          intro hany
          obtain ⟨j, hj, he⟩ := List.any_eq_true.mp hany
          exact hi (List.mem_map.mpr ⟨j, hj, by simpa using he⟩)
        rw [if_neg hany, List.map_cons, List.filter_cons_of_pos (by simpa using hi),
          List.eraseDups_cons, List.filter_filter, List.map_append, List.append_assoc]
        simp only [List.map_cons, List.map_nil, List.cons_append, List.nil_append, List.mem_append,
          List.mem_singleton, not_or, Bool.decide_and]
        congr 3
        refine List.filter_congr fun x _ => ?_
        rw [Bool.and_comm]
        congr 1
        by_cases hx : x = i.2.2 <;> simp [hx]
  rw [imports, step, modules]
  simp only [List.map_flatMap, imports_piece, List.map_nil, List.nil_append, List.not_mem_nil,
    not_false_eq_true, decide_true, List.filter_true]

end Program

/-! ## Variables -/

/-- A variable as it is written: a name, or a name with its module. -/
inductive Variable
  | plain (name : String)
  | qualified (mod name : String)

/-- The variable is one of the names. -/
def Variable.Among (names : List String) : Variable → Prop
  | plain x => x ∈ names
  | qualified .. => False

theorem Variable.among_append {xs ys : List String} {v : Variable} :
    v.Among (xs ++ ys) ↔ v.Among xs ∨ v.Among ys := by
  cases v <;> simp [Among]

namespace Expr

/-- The variable occurs outside of everything that binds it. The definitions of a `let` see one
another and themselves. -/
inductive Free (v : Variable) : Expr → Prop
  | var {p : Pos} {x : String} (h : v = .plain x) : Free v (.var p x)
  | qualified {p : Pos} {mod x : String} (h : v = .qualified mod x) : Free v (.qualified p mod x)
  | fn {fn : Expr} {args : List Expr} (h : Free v fn) : Free v (.app fn args)
  | arg {fn a : Expr} {args : List Expr} (ha : a ∈ args) (h : Free v a) : Free v (.app fn args)
  | left {p : Pos} {op : Operator} {l r : Expr} (h : Free v l) : Free v (.binary p op l r)
  | right {p : Pos} {op : Operator} {l r : Expr} (h : Free v r) : Free v (.binary p op l r)
  | negate {p : Pos} {e : Expr} (h : Free v e) : Free v (.negate p e)
  | lambda {p : Pos} {param : Param} {more : List Param} {body : Expr} (h : Free v body)
    (hp : ¬ v.Among (paramNames (param :: more))) : Free v (.lambda p param more body)
  | bind {p : Pos} {b : Binding} {binds : List Binding} {body : Expr} (hb : b ∈ binds)
    (h : Free v b.body) (hp : ¬ v.Among (paramNames b.params))
    (hn : ¬ v.Among (binds.map (·.name))) : Free v (.letIn p binds body)
  | body {p : Pos} {binds : List Binding} {body : Expr} (h : Free v body)
    (hn : ¬ v.Among (binds.map (·.name))) : Free v (.letIn p binds body)
  | test {p : Pos} {test yes no : Expr} (h : Free v test) : Free v (.cond p test yes no)
  | yes {p : Pos} {test yes no : Expr} (h : Free v yes) : Free v (.cond p test yes no)
  | no {p : Pos} {test yes no : Expr} (h : Free v no) : Free v (.cond p test yes no)

end Expr

/-- The variable is seen from everywhere in a program. -/
def Visible.Has (vis : Visible) : Variable → Prop
  | .plain x => x ∈ vis.plain
  | .qualified mod x => ∃ names, vis.exports.get? mod = some (some names) ∧ x ∈ names

namespace Expr

variable {vis : Visible}

/-- Every free variable is one of `locals` or seen from everywhere. -/
abbrev Closed (vis : Visible) (locals : List String) (e : Expr) : Prop :=
  ∀ v, e.Free v → v.Among locals ∨ vis.Has v

theorem checkVar_eq_nil {locals : List String} {pos : Pos} {x : String} :
    vis.checkVar locals pos x = [] ↔ Closed vis locals (.var pos x) := by
  have hcheck : vis.checkVar locals pos x = [] ↔ x ∈ locals ∨ x ∈ vis.plain := by
    by_cases hx : x ∈ locals ∨ x ∈ vis.plain <;> simp [Visible.checkVar, hx]
  rw [hcheck]
  constructor
  · intro h v hv
    cases hv with
    | var he => exact he ▸ h
  · exact fun h => h (.plain x) (.var rfl)

theorem checkQualified_eq_nil (hc : vis.Complete) {locals : List String} {pos : Pos}
    {mod x : String} :
    vis.checkQualified pos mod x = [] ↔ Closed vis locals (.qualified pos mod x) := by
  have hcheck : vis.checkQualified pos mod x = [] ↔ vis.Has (.qualified mod x) := by
    simp only [Visible.checkQualified, Visible.Has]
    cases hg : vis.exports.get? mod with
    | none => simp
    | some o =>
      cases o with
      | none => exact absurd hg (hc mod)
      | some names => by_cases hx : x ∈ names <;> simp [hx]
  rw [hcheck]
  constructor
  · intro h v hv
    cases hv with
    | qualified he => exact .inr (he ▸ h)
  · exact fun h => (h (.qualified mod x) (.qualified rfl)).resolve_left id

theorem closed_append {names locals : List String} {e : Expr} :
    Closed vis (names ++ locals) e ↔
      ∀ v, e.Free v → ¬ v.Among names → v.Among locals ∨ vis.Has v := by
  refine forall_congr' fun v => imp_congr_right fun _ => ?_
  rw [Variable.among_append, or_assoc, or_iff_not_imp_left]

mutual

theorem check_eq_nil (hc : vis.Complete) : ∀ (e : Expr) (locals : List String),
    e.check vis locals = [] ↔ Closed vis locals e
  | .var .., locals => by rw [check, checkVar_eq_nil]
  | .qualified .., locals => by rw [check, checkQualified_eq_nil hc]
  | .int .., _ | .str .., _ | .bool .., _ | .unit .., _ | .operator .., _ => by
    simp only [check, true_iff]
    exact fun v h => nomatch h
  | .app fn args, locals => by
    rw [check, List.append_eq_nil_iff, check_eq_nil hc fn, checkAll_eq_nil_iff hc args]
    constructor
    · intro ⟨hf, ha⟩ v hv
      cases hv with
      | fn h => exact hf v h
      | arg hm h => exact ha _ hm v h
    · exact fun h => ⟨fun v hv => h v (.fn hv), fun a hm v hv => h v (.arg hm hv)⟩
  | .binary _ _ l r, locals => by
    rw [check, List.append_eq_nil_iff, check_eq_nil hc l, check_eq_nil hc r]
    constructor
    · intro ⟨hl, hr⟩ v hv
      cases hv with
      | left h => exact hl v h
      | right h => exact hr v h
    · exact fun h => ⟨fun v hv => h v (.left hv), fun v hv => h v (.right hv)⟩
  | .negate _ e, locals => by
    rw [check, check_eq_nil hc e]
    constructor
    · intro he v hv
      cases hv with
      | negate h => exact he v h
    · exact fun h v hv => h v (.negate hv)
  | .lambda _ p ps body, locals => by
    rw [check, check_eq_nil hc body, closed_append]
    constructor
    · intro hb v hv
      cases hv with
      | lambda h hp => exact hb v h hp
    · exact fun h v hv hp => h v (.lambda hv hp)
  | .letIn _ binds body, locals => by
    rw [check, List.append_eq_nil_iff, check_eq_nil hc body, checkBinds_eq_nil_iff hc binds,
      closed_append]
    constructor
    · intro ⟨hbs, hb⟩ v hv
      cases hv with
      | bind hm h hp hn =>
        have hbind := closed_append.mp (hbs _ hm) v h hp
        rw [Variable.among_append, or_assoc] at hbind
        exact hbind.resolve_left hn
      | body h hn => exact hb v h hn
    · intro h
      refine ⟨fun b hb => closed_append.mpr fun v hv hp => ?_, fun v hv hn => h v (.body hv hn)⟩
      rw [Variable.among_append, or_assoc, or_iff_not_imp_left]
      exact fun hn => h v (.bind hb hv hp hn)
  | .cond _ test yes no, locals => by
    rw [check, List.append_eq_nil_iff, List.append_eq_nil_iff, check_eq_nil hc test,
      check_eq_nil hc yes, check_eq_nil hc no]
    constructor
    · intro ⟨⟨ht, hy⟩, hn⟩ v hv
      cases hv with
      | test h => exact ht v h
      | yes h => exact hy v h
      | no h => exact hn v h
    · exact fun h => ⟨⟨fun v hv => h v (.test hv), fun v hv => h v (.yes hv)⟩,
        fun v hv => h v (.no hv)⟩

theorem checkAll_eq_nil_iff (hc : vis.Complete) : ∀ (es : List Expr) {locals : List String},
    checkAll vis locals es = [] ↔ ∀ e ∈ es, Closed vis locals e
  | [], _ => by simp [checkAll]
  | e :: es, locals => by
    rw [checkAll, List.append_eq_nil_iff, check_eq_nil hc e, checkAll_eq_nil_iff hc es,
      List.forall_mem_cons]

theorem checkBinds_eq_nil_iff (hc : vis.Complete) : ∀ (bs : List Binding) {locals : List String},
    checkBinds vis locals bs = [] ↔ ∀ b ∈ bs, Closed vis (paramNames b.params ++ locals) b.body
  | [], _ => by simp [checkBinds]
  | ⟨_, _, params, _, body⟩ :: bs, locals => by
    rw [checkBinds, List.append_eq_nil_iff, check_eq_nil hc body, checkBinds_eq_nil_iff hc bs,
      List.forall_mem_cons]

end

end Expr

/-! ## Programs -/

namespace Program

/-- The variable is one that every program starts with, an import exports it, or the program binds
it; with a module before it, that module is imported and exports it. -/
def Defines (ps : List Piece) (exports : Table (List String)) : Variable → Prop
  | .plain x => x ∈ Builtin.all.map (·.name) ∨ (∃ mod names, (mod, names) ∈ exports ∧ x ∈ names) ∨
      ∃ p ∈ ps, x ∈ p.bound
  | .qualified mod x => ∃ names, (mod, names) ∈ exports ∧ x ∈ names

/-- The program is well-formed if its imports have these exports. What is bound again does not have
to make sense. -/
structure WellFormed (ps : List Piece) (exports : Table (List String)) : Prop where
  pieces : ∀ p ∈ ps, p.WellFormed
  defined : ∀ p b, (p, b) ∈ lasting (written ps) → ∀ v, b.body.Free v →
    v.Among (Expr.paramNames b.params) ∨ Defines ps exports v

variable {ps : List Piece} {exports : Table (List String)}

/-- Imports of which the exports are known. -/
def resolved (exports : Table (List String)) : Table Import :=
  exports.map fun p => (p.1, .exports p.2)

theorem get?_resolved (exports : Table (List String)) (mod : String) :
    (resolved exports).get? mod = (exports.get? mod).map .exports :=
  Table.get?_map_snd Import.exports exports mod

theorem get?_visible_resolved (ps : List Piece) (exports : Table (List String)) (mod : String) :
    (visible ps (resolved exports)).exports.get? mod = (exports.get? mod).map some := by
  rw [get?_visible, get?_resolved, Option.map_map]
  rfl

theorem mem_names_written {x : String} : x ∈ (written ps).map (·.2.name) ↔ ∃ p ∈ ps, x ∈ p.bound := by
  simp only [written, Piece.bound, List.map_flatMap, List.mem_flatMap, List.map_map]
  rfl

theorem has_visible (hn : exports.names.Nodup) {v : Variable} :
    (visible ps (resolved exports)).Has v ↔ Defines ps exports v := by
  cases v with
  | plain x =>
    have hdefs : x ∈ (definitions ps).map (·.binding.name) ↔ ∃ p ∈ ps, x ∈ p.bound := by
      rw [definitions_eq, List.map_map, ← mem_names_written, ← mem_names_lasting]
      rfl
    simp only [Visible.Has, visible, List.mem_append, hdefs, resolved, List.flatMap_map,
      List.mem_flatMap, Defines, Prod.exists]
    exact or_comm.trans (or_congr_right or_comm)
  | qualified mod x =>
    have hmem : ∀ names, exports.get? mod = some names ↔ (mod, names) ∈ exports :=
      fun names => ⟨Table.mem_of_get?, Table.get?_of_mem hn⟩
    simp [Visible.Has, get?_visible_resolved, Defines, hmem]

theorem check_resolved {name : String} {c : ModuleCode} (hn : exports.names = modules ps) :
    check name ps (resolved exports) = .ok c ↔ WellFormed ps exports ∧
      c = ⟨name, modules ps, (lasting (written ps)).map definitionOf⟩ := by
  have hnodup : exports.names.Nodup := by
    rw [hn, ← names_imports]
    exact nodup_imports ps
  have hcomplete : (visible ps (resolved exports)).Complete := by
    intro mod hg
    rw [get?_visible_resolved, Option.map_eq_some_iff] at hg
    obtain ⟨_, _, h⟩ := hg
    cases h
  have hscope : ∀ d : Definition, d.binding.body.check (visible ps (resolved exports))
      (Expr.paramNames d.binding.params) = [] ↔ ∀ v, d.binding.body.Free v →
        v.Among (Expr.paramNames d.binding.params) ∨ Defines ps exports v := by
    intro d
    rw [Expr.check_eq_nil hcomplete]
    exact forall₂_congr fun v _ => or_congr_right (has_visible hnodup)
  have himports : ∀ i ∈ imports ps,
      importDiagnostics i.1 i.2.1 i.2.2 (((resolved exports).get? i.2.2).getD .unknown) = [] := by
    intro i hi
    have hmem : i.2.2 ∈ exports.names := by
      rw [hn, ← names_imports]
      exact List.mem_map_of_mem hi
    obtain ⟨names, hnames⟩ := Option.isSome_iff_exists.mp (Table.get?_isSome.mpr hmem)
    rw [get?_resolved, hnames]
    rfl
  have hcode : (⟨name, (imports ps).map (·.2.2), definitions ps⟩ : ModuleCode) =
      ⟨name, modules ps, (lasting (written ps)).map definitionOf⟩ := by
    rw [names_imports, definitions_eq]
  constructor
  · intro h
    obtain ⟨hc, -, hd⟩ := check_ok h
    refine ⟨⟨fun p hp => Piece.diagnostics_eq_nil.mp (diagnostics_of_check h p hp),
      fun p b hb => ?_⟩, hc.trans hcode⟩
    have hdef : definitionOf (p, b) ∈ definitions ps := by
      rw [definitions_eq]
      exact List.mem_map_of_mem hb
    exact (hscope _).mp (hd _ hdef)
  · rintro ⟨hw, rfl⟩
    rw [← hcode]
    refine check_eq_ok (fun p hp => Piece.diagnostics_eq_nil.mpr (hw.pieces p hp)) himports ?_
    intro d hd
    rw [definitions_eq] at hd
    obtain ⟨⟨p, b⟩, hb, rfl⟩ := List.mem_map.mp hd
    exact (hscope _).mpr (hw.defined p b hb)

end Program

namespace Interpreter

variable {resolve : String → StateM Search Program.Import}

/-- Modules are resolved one after the other, each with the exports in the table. -/
inductive Resolution (resolve : String → StateM Search Program.Import) :
    List String → Search → Table (List String) → Search → Prop
  | nil {s : Search} : Resolution resolve [] s [] s
  | cons {mod : String} {mods names : List String} {exports : Table (List String)}
    {s s₁ s₂ : Search} (h : (resolve mod).run s = (.exports names, s₁))
    (hs : Resolution resolve mods s₁ exports s₂) :
    Resolution resolve (mod :: mods) s ((mod, names) :: exports) s₂

theorem Resolution.names {mods : List String} {s s' : Search} {exports : Table (List String)}
    (h : Resolution resolve mods s exports s') : exports.names = mods := by
  induction h with
  | nil => rfl
  | cons _ _ ih => exact congrArg _ ih

theorem Resolution.run {s' : Search} {exports : Table (List String)}
    {is : List (String × Pos × String)} : ∀ {s : Search},
    Resolution resolve (is.map (·.2.2)) s exports s' →
      (importAll resolve is).run s = (Program.resolved exports, s') := by
  induction is generalizing exports with
  | nil =>
    intro s h
    cases h
    rfl
  | cons i is ih =>
    intro s h
    rw [List.map_cons] at h
    cases h with
    | cons hone hrest =>
      rw [run_importAll, hone, ih hrest]
      rfl

theorem resolution_of_run {is : List (String × Pos × String)} : ∀ {s : Search},
    (∀ p ∈ ((importAll resolve is).run s).1, ∃ names, p.2 = .exports names) →
      ∃ exports, Resolution resolve (is.map (·.2.2)) s exports ((importAll resolve is).run s).2 := by
  induction is with
  | nil => exact fun _ => ⟨[], .nil⟩
  | cons i is ih =>
    intro s h
    rw [run_importAll] at h ⊢
    rw [List.forall_mem_cons] at h
    obtain ⟨⟨names, hnames⟩, h⟩ := h
    obtain ⟨exports, hexports⟩ := ih h
    exact ⟨_, .cons (Prod.ext hnames rfl) hexports⟩

theorem names_importAll (is : List (String × Pos × String)) : ∀ s : Search,
    Table.names ((importAll resolve is).run s).1 = is.map (·.2.2) := by
  induction is with
  | nil => exact fun _ => rfl
  | cons i is ih =>
    intro s
    rw [run_importAll]
    exact congrArg _ (ih _)

/-- A program that passes has imports that all came out. -/
theorem exports_of_check {name : String} {ps : List Piece} {imported : Table Program.Import}
    {c : ModuleCode} (h : Program.check name ps imported = .ok c)
    (hn : imported.names = (Program.imports ps).map (·.2.2)) :
    ∀ p ∈ imported, ∃ names, p.2 = .exports names := by
  rintro ⟨mod, i⟩ hp
  have hmem : mod ∈ (Program.imports ps).map (·.2.2) := hn ▸ List.mem_map_of_mem hp
  obtain ⟨q, hq, rfl⟩ := List.mem_map.mp hmem
  have hsaid := (Program.check_ok h).2.1 q hq
  rw [Table.get?_of_mem (hn ▸ Program.nodup_imports ps) hp, Option.getD_some] at hsaid
  cases i with
  | exports names => exact ⟨names, rfl⟩
  | unknown => cases hsaid
  | failed ds => cases ds <;> cases hsaid

/-- Compiling accepts the programs whose imports all come out and that are well-formed with what
these export. It keeps of each name the binding that stands last, in the order in which these stand,
and wants of the value of each what the signature in the same piece says. -/
theorem accepts_wellFormed (resolve : String → StateM Search Program.Import) (name : String)
    (ps : List Piece) (s s' : Search) (c : ModuleCode) :
    (compile resolve name ps).run s = (.ok c, s') ↔
      ∃ exports, Resolution resolve (Program.modules ps) s exports s' ∧
        Program.WellFormed ps exports ∧
        c = ⟨name, Program.modules ps,
          (Program.lasting (Program.written ps)).map Program.definitionOf⟩ := by
  have hrun : (compile resolve name ps).run s =
      (Program.check name ps ((importAll resolve (Program.imports ps)).run s).1,
        ((importAll resolve (Program.imports ps)).run s).2) := rfl
  rw [hrun, ← Program.names_imports]
  constructor
  · intro h
    obtain ⟨hcheck, rfl⟩ := Prod.mk.inj h
    obtain ⟨exports, hexports⟩ :=
      resolution_of_run (exports_of_check hcheck (names_importAll _ _))
    refine ⟨exports, hexports, ?_⟩
    rw [hexports.run] at hcheck
    rw [Program.names_imports] at hexports ⊢
    exact (Program.check_resolved hexports.names).mp hcheck
  · rintro ⟨exports, hexports, hprogram⟩
    rw [hexports.run]
    rw [Program.names_imports] at hexports hprogram
    rw [(Program.check_resolved hexports.names).mpr hprogram]

/-- A piece with the lines `f :: Int` and `f x = x`. -/
def mistyped : Piece :=
  ⟨fragmentSource, [.signature ⟨1, 1⟩ ["f"] (.con ⟨1, 6⟩ "Int"),
    .binding ⟨⟨2, 1⟩, "f", [.named "x"], false, .var ⟨2, 7⟩ "x"⟩]⟩

/-- The value of a function is not checked against its signature: not every binding that is kept is
wanted to have the base type of its signature. -/
theorem function_unchecked : ¬ ∀ (resolve : String → StateM Search Program.Import) (name : String)
    (ps : List Piece) (s s' : Search) (c : ModuleCode),
    (compile resolve name ps).run s = (.ok c, s') →
      c.defs = (Program.lasting (Program.written ps)).map fun (p, b) =>
        ⟨b, p.source, (p.type? b.name).bind TypeExpr.base?⟩ := by
  intro h
  have hwant := congrArg (List.map (·.want))
    (h (fun _ => pure .unknown) "M" [mistyped] ⟨.disabled, []⟩ _ _ rfl)
  revert hwant
  decide

end Interpreter

end LazySession
