import LazySession.Proofs.Indexed.Grammar
import LazySession.Proofs.Indexed.Scan
import LazySession.Proofs.Lang.Ends
import LazySession.Proofs.Lang.Places

/-!
# Reading a whole text by index
-/

namespace LazySession

namespace Indexed

/-! ## Items -/

/-- Cuts the tokens from `start` on into items, the next of which starts at `i` or behind. -/
def splitFrom (toks : List Token) : Nat → (start i : Nat) → Except Halt (List (List Token))
  | 0, _, _ => .error .tooDeep
  | n + 1, start, i => do
    if i < toks.length then
      let t ← index toks i
      if Item.startsItem t then
        let item ← slice toks start i
        return item :: (← splitFrom toks n i (i + 1))
      else splitFrom toks n start (i + 1)
    else if start < toks.length then return [← slice toks start toks.length]
    else return []

def split (n : Nat) (toks : List Token) : Except Halt (List (List Token)) :=
  splitFrom toks n 0 1

def stopOf (item : List Token) : Except Halt Pos := do
  let last ← index item (item.length - 1)
  return last.stop

/-- Whether the item goes on like a declaration from `i` on. -/
def leadsToDecl (item : List Token) : Nat → (i : Nat) → Except Halt Bool
  | 0, _ => .error .tooDeep
  | n + 1, i => do
    if i < item.length then
      match (← index item i).kind with
      | .equals | .doubleColon => return true
      | .ident | .comma => leadsToDecl item n (i + 1)
      | .lparen =>
        if i + 1 < item.length then
          if (← index item (i + 1)).kind = .rparen then leadsToDecl item n (i + 2) else return false
        else return false
      | _ => return false
    else return false

def isDecl (n : Nat) (item : List Token) : Except Halt Bool := do
  let first ← index item 0
  if first.kind = .kwImport then return true
  else
    let i := if first.kind = .bang then 1 else 0
    if i < item.length then
      if (← index item i).kind = .ident then leadsToDecl item n (i + 1) else return false
    else return false

/-- Runs a reader on the tokens. Only the faults of the text are caught. -/
def caught {α : Type} (x : Reader α) (toks : List Token) (stop : Pos) :
    Except Halt (Except Issue α) :=
  match x.run ⟨toks ++ [.eof stop], 0, []⟩ with
  | .ok (a, _) => .ok (.ok a)
  | .error (.issue i) => .ok (.error i)
  | .error halt => .error halt

/-- The declarations of the items and the faults in them. -/
def decls (n : Nat) (source : String) : List (List Token) → Except Halt (List Decl × List SyntaxError)
  | [] => return ([], [])
  | item :: items => do
    let stop ← stopOf item
    let read ← caught (do let d ← decl n; expectEnd; return d) item stop
    let (ds, es) ← decls n source items
    match read with
    | .ok d => return (d :: ds, es)
    | .error i => return (ds, i.in source :: es)

/-! ## Modules and fragments -/

/-- A tree, or none, and the faults. -/
abbrev Outcome (α : Type) := Option α × List SyntaxError

def moduleOf (n : Nat) (source : String) (body : List Token) (stop : Pos) :
    Except Halt (Outcome Module) := do
  match ← caught (do let head ← moduleHeader; return (head, (← get).pos)) body stop with
  | .error i => return (none, [i.in source])
  | .ok ((pos, name), i) =>
    let rest ← slice body i body.length
    if rest.length = 0 then return (some { pos, name, decls := [] }, [])
    else
      let (ds, es) ← decls n source (← split n rest)
      if 0 < es.length then return (none, es) else return (some { pos, name, decls := ds }, [])

/-- The first item that is a declaration unlike the others, or the other way round. -/
def findOther (n : Nat) (decl : Bool) : List (List Token) → Except Halt (Option (List Token))
  | [] => return none
  | item :: items => do
    if (← isDecl n item) != decl then return some item else findOther n decl items

def fragmentOf (n : Nat) (source : String) (body : List Token) (stop : Pos) :
    Except Halt (Outcome Fragment) := do
  let items ← split n body
  let kinds ← items.mapM (isDecl n)
  if kinds.count false = 0 then
    let (ds, es) ← decls n source items
    if 0 < es.length then return (none, es) else return (some (.definitions ds), [])
  else if kinds.count true = 0 then
    match ← caught (do let e ← expr n; expectEnd; return e) body stop with
    | .error i => return (none, [i.in source])
    | .ok e => return (some (.expression e), [])
  else
    let decl ← isDecl n (← index items 0)
    match ← findOther n decl (← slice items 1 items.length) with
    | some item => return (none, [⟨source, (← index item 0).pos, .mixedFragment⟩])
    | none => throw .unreachable

def readModule (n : Nat) (source text : String) : Except Halt (Outcome Module) := do
  match ← lex n source text with
  | .error e => return (none, [e])
  | .ok toks =>
    let body ← slice toks 0 (toks.length - 1)
    let eof ← index toks (toks.length - 1)
    if body.length = 0 then return (none, [⟨source, (← index toks 0).pos, .noModuleHeader⟩])
    else if (← index body 0).kind ≠ .kwModule then
      return (none, [⟨source, (← index toks 0).pos, .noModuleHeader⟩])
    else moduleOf n source body eof.pos

def readFragment (n : Nat) (source text : String) : Except Halt (Outcome Fragment) := do
  match ← lex n source text with
  | .error e => return (none, [e])
  | .ok toks =>
    let body ← slice toks 0 (toks.length - 1)
    let eof ← index toks (toks.length - 1)
    if body.length = 0 then return (some (.definitions []), [])
    else if (← index body 0).kind = .kwModule then
      let (m, es) ← moduleOf n source body eof.pos
      if 0 < es.length then return (none, es) else return (m.map .module, [])
    else fragmentOf n source body eof.pos

/-! ## Items are cut alike -/

variable {n : Nat} {source : String} {toks : List Token} {stop : Pos}

theorem ok_bind {α β : Type} (a : α) (f : α → Except Halt β) : (Except.ok a >>= f) = f a := rfl

theorem index_succ (before : List Token) (t u : Token) (rest : List Token) :
    index (before ++ t :: u :: rest) (before.length + 1) = .ok u := by
  have hget : (before ++ t :: u :: rest)[before.length + 1]? = some u := by
    rw [List.getElem?_append_right (by omega), Nat.add_sub_cancel_left]
    rfl
  have h := index_eq_ok hget
  push_cast at h
  exact h

theorem slice_mid (before mid behind : List Token) :
    slice (before ++ mid ++ behind) before.length (before ++ mid).length = .ok mid := by
  have h := slice_append before mid behind
  rw [List.length_append]
  push_cast
  exact h

theorem splitFrom_eq (before seen ts : List Token) (first : Token) (hn : ts.length < n) :
    splitFrom (before ++ (first :: seen.reverse) ++ ts) n before.length
        (before ++ (first :: seen.reverse)).length =
      .ok ((Item.splitFrom first seen [] ts).map Item.toks) := by
  induction n generalizing before seen ts first with
  | zero => omega
  | succ n ih =>
    unfold splitFrom
    cases ts with
    | nil =>
      have hslice := slice_rest before (first :: seen.reverse)
      rw [if_neg (by simp), if_pos (by simp), List.append_nil, hslice]
      simp [Item.splitFrom, Item.toks]
    | cons t ts =>
      simp only [List.length_cons] at hn
      rw [if_pos (by simp), index_append, ok_bind]
      by_cases hstarts : Item.startsItem t = true
      · have hslice := slice_mid before (first :: seen.reverse) (t :: ts)
        rw [if_pos hstarts, hslice, ok_bind, Item.splitFrom, if_pos hstarts, Item.splitFrom_done]
        generalize before ++ (first :: seen.reverse) = front
        have hlen : (front ++ [t]).length = front.length + 1 := List.length_append
        have hnext := ih front [] ts t (by omega)
        rw [List.reverse_nil, hlen, List.append_assoc, List.singleton_append] at hnext
        rw [hnext]
        rfl
      · have hnext := ih before (t :: seen) ts first (by omega)
        have hlist : first :: (t :: seen).reverse = first :: seen.reverse ++ [t] := by simp
        rw [hlist, ← List.append_assoc, List.append_assoc _ [t] ts, List.length_append] at hnext
        rw [if_neg hstarts, Item.splitFrom, if_neg hstarts]
        exact hnext

theorem split_eq (hn : toks.length < n) : split n toks = .ok ((Item.split toks).map Item.toks) := by
  cases toks with
  | nil =>
    obtain ⟨n, rfl⟩ : ∃ k, n = k + 1 := ⟨n - 1, by simp at hn; omega⟩
    rfl
  | cons t ts =>
    simp only [List.length_cons] at hn
    exact splitFrom_eq [] [] ts t (by omega)

theorem stopOf_eq (item : Item) : stopOf item.toks = .ok item.stop := by
  obtain ⟨first, rest⟩ := item
  unfold stopOf Item.stop Item.toks
  rcases List.eq_nil_or_concat rest with rfl | ⟨front, last, rfl⟩
  · rfl
  · have hlast := index_last (first :: front) last
    rw [List.concat_eq_append, ← List.cons_append, hlast]
    simp

theorem leadsToDecl_eq (before ts : List Token) (hn : ts.length < n) :
    leadsToDecl (before ++ ts) n before.length = .ok (Item.leadsToDecl ts) := by
  induction n generalizing before ts with
  | zero => omega
  | succ n ih =>
    rw [Item.leadsToDecl.eq_def]
    unfold leadsToDecl
    cases ts with
    | nil =>
      rw [if_neg (by simp)]
      rfl
    | cons t ts =>
      simp only [List.length_cons] at hn
      have hnext := ih (before ++ [t]) ts (by omega)
      simp only [List.append_assoc, List.singleton_append, List.length_append,
        List.length_singleton] at hnext
      rw [if_pos (by simp), index_append, ok_bind]
      simp only
      cases hk : t.kind with
      | equals | doubleColon => rfl
      | ident | comma => exact hnext
      | lparen =>
        cases ts with
        | nil =>
          simp only
          rw [if_neg (by simp)]
          rfl
        | cons u us =>
          simp only [List.length_cons] at hn
          have hbehind := ih (before ++ [t, u]) us (by omega)
          rw [if_pos (by simp), index_succ, ok_bind]
          by_cases hunit : u.kind = .rparen
          · simp only [if_pos hunit]
            simpa using hbehind
          · simp only [if_neg hunit]
            rfl
      | _ => rfl

theorem isDecl_eq (item : Item) (hn : item.toks.length < n) :
    isDecl n item.toks = .ok item.isDecl := by
  obtain ⟨first, rest⟩ := item
  unfold Item.toks at hn ⊢
  simp only [List.length_cons] at hn
  have hfirst : index (first :: rest) 0 = .ok first := index_append [] first rest
  unfold isDecl Item.isDecl
  rw [hfirst, ok_bind]
  simp only
  cases hk : first.kind with
  | kwImport => rfl
  | bang =>
    cases rest with
    | nil => rfl
    | cons t ts =>
      have hsecond : index (first :: t :: ts) 1 = .ok t := index_succ [] first t ts
      have hleads := leadsToDecl_eq [first, t] ts (n := n) (by simp at hn; omega)
      simp only [reduceCtorEq, if_true, if_false, List.length_cons, Nat.cast_one, hsecond, ok_bind]
      rw [if_pos (by omega)]
      by_cases hident : t.kind = .ident
      · simpa [hident] using hleads
      · rw [if_neg hident, beq_eq_false_iff_ne.mpr hident]
        rfl
  | ident =>
    have hleads := leadsToDecl_eq [first] rest (n := n) (by omega)
    simp only [reduceCtorEq, if_false, List.length_cons, Nat.cast_zero, hfirst, ok_bind, hk]
    rw [if_pos (by omega)]
    exact hleads
  | _ =>
    simp only [reduceCtorEq, if_false, List.length_cons, Nat.cast_zero, hfirst, ok_bind, hk]
    rw [if_pos (by omega)]
    rfl

/-! ## Readers are run alike -/

section
variable {α : Type}

theorem stands_start (toks : List Token) (stop : Pos) :
    Stands (toks ++ [.eof stop]) ⟨toks ++ [.eof stop], 0, []⟩ { toks, stop } :=
  ⟨rfl, ⟨[], rfl, rfl⟩, rfl⟩

theorem ample_start (hdot : ∀ t ∈ toks, Dotted t) (hn : 8 * toks.length + 8 ≤ n) :
    Ample (toks ++ [.eof stop]) n 8 { toks, stop } := by
  refine ⟨List.forall_mem_append.mpr ⟨hdot, List.forall_mem_singleton.mpr ?_⟩, hn⟩
  intro hk
  cases hk

theorem Mirrors.ends {all : List Token} {E : Prop} {x : Reader α} {s : State}
    {told : Except Issue (α × Cursor)} (h : Mirrors all E x s told) (hE : E) :
    (∃ a s' d, x.run s = .ok (a, s') ∧ told = .ok (a, d) ∧ Stands all s' d) ∨
      ∃ i, x.run s = .error (.issue i) ∧ told = .error i := by
  unfold Mirrors at h
  cases hx : x.run s with
  | ok p =>
    rw [hx] at h
    obtain ⟨d, htold, hs⟩ := h
    exact .inl ⟨p.1, p.2, d, rfl, htold, hs⟩
  | error e =>
    rw [hx] at h
    cases e with
    | issue i => exact .inr ⟨i, rfl, h⟩
    | _ => exact absurd hE h

theorem Mirrors.caught {E : Prop} {x : Reader α}
    {told : Except Issue (α × Cursor)}
    (h : Mirrors (toks ++ [.eof stop]) E x ⟨toks ++ [.eof stop], 0, []⟩ told)
    (hE : E) : Indexed.caught x toks stop = .ok (told.map Prod.fst) := by
  unfold Indexed.caught
  rcases h.ends hE with ⟨a, s', d, hx, rfl, -⟩ | ⟨i, hx, rfl⟩
  · rw [hx]
    rfl
  · rw [hx]
    rfl

theorem caught_whole (stop : Pos) {x : Reader α} {r : LazySession.Reader α}
    (h : ∀ {all s c}, Stands all s c → Mirrors all (Ample all n 8 c) x s (r.run c))
    (hdot : ∀ t ∈ toks, Dotted t) (hn : 8 * toks.length + 8 ≤ n) :
    caught (do let a ← x; expectEnd; return a) toks stop = .ok (r.runAll toks stop) := by
  have hm := mirrors_bind (h (stands_start toks stop)) fun a s' d _ hs' =>
    mirrors_bind (mirrors_expectEnd hs') fun _ s'' d' _ hs'' => mirrors_pure hs'' a
  have hcaught := hm.caught (ample_start hdot hn)
  rw [hcaught]
  unfold LazySession.Reader.runAll
  cases StateT.run (do let a ← r; LazySession.Reader.expectEnd; return a : LazySession.Reader α)
    { toks, stop } <;> rfl

end

theorem caught_decl (item : Item) (hdot : ∀ t ∈ item.toks, Dotted t)
    (hn : 8 * item.toks.length + 8 ≤ n) :
    caught (do let d ← decl n; expectEnd; return d) item.toks item.stop = .ok item.decl :=
  caught_whole item.stop mirrors_decl hdot hn

theorem caught_moduleHeader (body : List Token) (stop : Pos) :
    match Grammar.moduleHeader.run { toks := body, stop } with
    | .error i => caught (do let head ← moduleHeader; return (head, (← get).pos)) body stop = .ok (.error i)
    | .ok (head, c) => ∃ before, body = before ++ c.toks ∧
        caught (do let head ← moduleHeader; return (head, (← get).pos)) body stop =
          .ok (.ok (head, before.length)) := by
  have hm : Mirrors _ True _ _ _ := mirrors_moduleHeader (stands_start body stop)
  unfold caught
  rw [run_bind]
  rcases hm.ends trivial with ⟨head, s', c, hx, htold, hs⟩ | ⟨i, hx, htold⟩
  · rw [hx, htold]
    obtain ⟨before, hall, hpos⟩ := hs.split
    have hbody : body = before ++ c.toks := by
      rw [← List.append_assoc] at hall
      exact (List.append_inj' hall rfl).1
    exact ⟨before, hbody, by rw [← hpos]; rfl⟩
  · rw [hx, htold]

/-! ## Whole texts are read alike -/

theorem toks_of_mem_split {i : Item} (hi : i ∈ Item.split toks) : i.toks.Sublist toks := by
  have h := List.sublist_flatten_of_mem (List.mem_map_of_mem (f := Item.toks) hi)
  rwa [← List.flatMap_def, Item.toks_split] at h

/-- A result as a tree, or none, and the faults. -/
def outcome {α : Type} : Except (List SyntaxError) α → Outcome α
  | .ok a => (some a, [])
  | .error es => (none, es)

theorem decls_eq (source : String) (items : List Item) (hdot : ∀ i ∈ items, ∀ t ∈ i.toks, Dotted t)
    (hn : ∀ i ∈ items, 8 * i.toks.length + 8 ≤ n) :
    ∃ ds es, decls n source (items.map Item.toks) = .ok (ds, es) ∧
      Decl.ofItems source items = if es.isEmpty then .ok ds else .error es := by
  refine ⟨_, _, ?_, rfl⟩
  induction items with
  | nil => rfl
  | cons item items ih =>
    have hread := caught_decl item (hdot item List.mem_cons_self) (hn item List.mem_cons_self)
    have hrest := ih (fun i hi => hdot i (List.mem_cons_of_mem _ hi))
      fun i hi => hn i (List.mem_cons_of_mem _ hi)
    rw [List.map_cons, decls, stopOf_eq, ok_bind, hread, ok_bind, hrest, ok_bind]
    cases hd : item.decl with
    | ok d => simp [hd]; rfl
    | error i => simp [hd]; rfl

theorem moduleOf_eq {body : List Token} (hdot : ∀ t ∈ body, Dotted t) (hn : 8 * body.length + 8 ≤ n) :
    moduleOf n source body stop = .ok (outcome (Module.ofTokens source body stop)) := by
  have hhead := caught_moduleHeader body stop
  unfold moduleOf Module.ofTokens
  cases hr : Grammar.moduleHeader.run { toks := body, stop } with
  | error i =>
    rw [hr] at hhead
    rw [hhead]
    rfl
  | ok p =>
    obtain ⟨⟨pos, name⟩, c⟩ := p
    rw [hr] at hhead
    obtain ⟨before, rfl, hcaught⟩ := hhead
    have hlen : c.toks.length ≤ (before ++ c.toks).length := by simp
    rw [hcaught, ok_bind]
    simp only
    rw [slice_rest, ok_bind]
    by_cases hempty : c.toks.length = 0
    · rw [if_pos hempty, List.length_eq_zero_iff.mp hempty]
      rfl
    · obtain ⟨ds, es, hdecls, hof⟩ := decls_eq (n := n) source (Item.split c.toks)
        (fun i hi t ht => hdot t (List.mem_append_right _ ((toks_of_mem_split hi).subset ht)))
        (fun i hi => by have := (toks_of_mem_split hi).length_le; omega)
      rw [if_neg hempty, split_eq (by omega), ok_bind, hdecls, ok_bind, hof]
      cases es <;> rfl

theorem kinds_eq (items : List Item) (hn : ∀ i ∈ items, i.toks.length < n) :
    (items.map Item.toks).mapM (isDecl n) = .ok (items.map Item.isDecl) := by
  induction items with
  | nil => rfl
  | cons item items ih =>
    rw [List.map_cons, List.mapM_cons, isDecl_eq item (hn item List.mem_cons_self), ok_bind,
      ih fun i hi => hn i (List.mem_cons_of_mem _ hi)]
    rfl

theorem findOther_eq (d : Bool) (items : List Item) (hn : ∀ i ∈ items, i.toks.length < n) :
    findOther n d (items.map Item.toks) = .ok ((items.find? fun i => i.isDecl != d).map Item.toks) := by
  induction items with
  | nil => rfl
  | cons item items ih =>
    rw [List.map_cons, findOther, isDecl_eq item (hn item List.mem_cons_self), ok_bind,
      List.find?_cons]
    cases hother : item.isDecl != d with
    | true => rfl
    | false => simpa using ih fun i hi => hn i (List.mem_cons_of_mem _ hi)

/-- Where items of both kinds stand, one is found that is unlike the first. -/
theorem mixed_eq {items : List Item} (hall : ¬ (items.all fun i => i.isDecl) = true)
    (hany : (items.any fun i => i.isDecl) = true) (hn : ∀ i ∈ items, i.toks.length < n) :
    (do
      let decl ← isDecl n (← index (items.map Item.toks) 0)
      match ← findOther n decl (← slice (items.map Item.toks) 1 (items.map Item.toks).length) with
      | some item => return (none, [⟨source, (← index item 0).pos, .mixedFragment⟩])
      | none => throw .unreachable : Except Halt (Outcome Fragment)) =
      .ok (outcome (.error [⟨source, Fragment.mixedAt items, .mixedFragment⟩])) := by
  cases items with
  | nil => cases hany
  | cons i rest =>
    have hfirst : index ((i :: rest).map Item.toks) 0 = .ok i.toks := index_append [] _ _
    have hrest : slice ((i :: rest).map Item.toks) 1 ((i :: rest).map Item.toks).length =
        .ok (rest.map Item.toks) := slice_rest [i.toks] (rest.map Item.toks)
    -- otherwise all items were of the first one's kind
    obtain ⟨j, hj⟩ : ∃ j, rest.find? (fun j => j.isDecl != i.isDecl) = some j := by
      cases hf : rest.find? fun j => j.isDecl != i.isDecl with
      | some j => exact ⟨j, rfl⟩
      | none =>
        have hsame : ∀ j ∈ i :: rest, j.isDecl = i.isDecl :=
          List.forall_mem_cons.mpr ⟨rfl, fun j hj => by simpa using List.find?_eq_none.mp hf j hj⟩
        obtain ⟨j, hj, hdecl⟩ := List.any_eq_true.mp hany
        have hi : i.isDecl = true := (hsame j hj).symm.trans hdecl
        exact absurd (List.all_eq_true.mpr fun k hk => (hsame k hk).trans hi) hall
    have hother := findOther_eq i.isDecl rest fun k hk => hn k (List.mem_cons_of_mem _ hk)
    have hpos : index j.toks 0 = .ok j.first := index_append [] _ _
    rw [hfirst, ok_bind, isDecl_eq i (hn i List.mem_cons_self), ok_bind, hrest, ok_bind, hother,
      ok_bind, hj]
    simp only [Option.map_some]
    rw [hpos]
    unfold Fragment.mixedAt
    simp only [hj]
    rfl

theorem fragmentOf_eq {body : List Token} (hdot : ∀ t ∈ body, Dotted t)
    (hn : 8 * body.length + 8 ≤ n) :
    fragmentOf n source body stop = .ok (outcome (Fragment.ofItems source body stop (Item.split body))) := by
  have hlen : ∀ i ∈ Item.split body, 8 * i.toks.length + 8 ≤ n := by
    intro i hi
    have := (toks_of_mem_split hi).length_le
    omega
  have hdots : ∀ i ∈ Item.split body, ∀ t ∈ i.toks, Dotted t :=
    fun i hi t ht => hdot t ((toks_of_mem_split hi).subset ht)
  have hshort : ∀ i ∈ Item.split body, i.toks.length < n := fun i hi => by have := hlen i hi; omega
  unfold fragmentOf Fragment.ofItems
  rw [split_eq (by omega), ok_bind, kinds_eq _ hshort, ok_bind]
  generalize Item.split body = items at *
  by_cases hall : (items.all fun i => i.isDecl) = true
  · obtain ⟨ds, es, hdecls, hof⟩ := decls_eq (n := n) source items hdots hlen
    have hnone : (items.map Item.isDecl).count false = 0 := by
      rw [List.count_eq_zero]
      intro hmem
      obtain ⟨i, hi, hfalse⟩ := List.mem_map.mp hmem
      rw [List.all_eq_true.mp hall i hi] at hfalse
      cases hfalse
    rw [if_pos hnone, if_pos hall, hdecls, ok_bind, hof]
    cases es <;> rfl
  · have hsome : (items.map Item.isDecl).count false ≠ 0 := by
      rw [Ne, List.count_eq_zero, not_not]
      obtain ⟨i, hi, hd⟩ := List.all_eq_false.mp (Bool.eq_false_iff.mpr hall)
      exact List.mem_map.mpr ⟨i, hi, Bool.eq_false_iff.mpr hd⟩
    rw [if_neg hsome, if_neg hall]
    by_cases hany : (items.any fun i => i.isDecl) = true
    · have hmore : (items.map Item.isDecl).count true ≠ 0 := by
        rw [Ne, List.count_eq_zero, not_not]
        obtain ⟨i, hi, hd⟩ := List.any_eq_true.mp hany
        exact List.mem_map.mpr ⟨i, hi, hd⟩
      rw [if_neg hmore, if_pos hany]
      exact mixed_eq hall hany hshort
    · have hnone : (items.map Item.isDecl).count true = 0 := by
        rw [List.count_eq_zero]
        intro hmem
        obtain ⟨i, hi, hd⟩ := List.mem_map.mp hmem
        exact hany (List.any_eq_true.mpr ⟨i, hi, hd⟩)
      have hread := caught_whole stop mirrors_expr hdot hn
      rw [if_pos hnone, if_neg hany, hread, ok_bind]
      cases Grammar.expr.runAll body stop <;> rfl

/-! ## Tokens of a text -/

theorem mem_dotted {cs : List Char} (h : (Lexeme.dotted cs).1 = .qvar) :
    '.' ∈ (Lexeme.dotted cs).2.1 := by
  revert h
  fun_induction Lexeme.dotted cs with
  | case1 | case2 => exact fun _ => List.mem_cons_self
  | case3 | case4 =>
    intro h
    cases h

theorem ofWord_ne_qvar (word : String) : TokenKind.ofWord word ≠ .qvar := by
  unfold TokenKind.ofWord
  split <;> simp

theorem ofSymbols_ne_qvar (run : String) : TokenKind.ofSymbols run ≠ .qvar := by
  unfold TokenKind.ofSymbols
  split <;> simp

theorem dotted_next {c : Char} {cs rest : List Char} {l : Lexeme}
    (h : Lexeme.next c cs = .ok (l, rest)) {text : String} (ht : l.token? = some (.qvar, text)) :
    '.' ∈ text.toList := by
  revert h
  fun_cases Lexeme.next c cs with
  | case1 => intro h; cases h; cases ht
  | case2 =>
    intro h
    rw [Lexeme.commentFrom_token h] at ht
    cases ht
  | case3 =>
    intro h
    cases h
    exact absurd (congrArg Prod.fst (Option.some.inj ht)) (ofWord_ne_qvar _)
  | case4 =>
    intro h
    obtain rfl : (Lexeme.name c cs).1 = l := congrArg Prod.fst (Except.ok.inj h)
    have hkind : (Lexeme.dotted (cs.dropWhile isIdentPart)).1 = .qvar :=
      congrArg Prod.fst (Option.some.inj ht)
    have htext := congrArg Prod.snd (Option.some.inj ht)
    simp only at htext
    rw [← htext, String.toList_ofList]
    exact List.mem_cons_of_mem _ (List.mem_append_right _ (mem_dotted hkind))
  | case6 =>
    intro h
    have hkind := Lexeme.stringFrom_token h
    rw [ht] at hkind
    cases hkind
  | case11 =>
    intro h
    simp only [Except.ok.injEq, Lexeme.symbols] at h
    split at h
    · cases h
      cases ht
    · cases h
      exact absurd (congrArg Prod.fst (Option.some.inj ht)) (ofSymbols_ne_qvar _)
  | case12 => intro h; cases h
  | _ => intro h; cases h; cases ht

theorem dotted_ofText {text : String} {x : Lexed} (h : Lexed.ofText source text = .ok x) :
    ∀ t ∈ x.tokens, Dotted t := by
  intro t ht hk
  obtain ⟨_, _, _, _, hn, htoken⟩ := Lexed.exists_next h ht
  rw [hk] at htoken
  exact dotted_next hn htoken

theorem length_cuts {cs rest : List Char} {ls : List Lexeme} (h : Lexeme.Cuts cs ls rest) :
    ls.length + rest.length ≤ cs.length := by
  induction h with
  | done => simp
  | step hn _ ih =>
    have := Lexeme.next_length_le hn
    simp only [List.length_cons]
    omega

theorem length_place (pos : Pos) (fresh : Bool) (ls : List Lexeme) :
    (Lexeme.place pos fresh ls).length ≤ ls.length := by
  induction ls generalizing pos fresh with
  | nil => exact Nat.le_refl _
  | cons l ls ih =>
    rw [Lexeme.place]
    split
    · exact Nat.succ_le_succ (ih _ _)
    · exact Nat.le_succ_of_le (ih _ _)

theorem length_ofText {text : String} {x : Lexed} (h : Lexed.ofText source text = .ok x) :
    x.tokens.length ≤ text.toList.length := by
  obtain ⟨ls, hcuts, hx⟩ := Lexed.cuts_of_ofText h
  rw [hx]
  exact Nat.le_trans (length_place _ _ ls) (length_cuts hcuts)

theorem readModule_eq {text : String} (hn : 8 * (text.toList.length + 1) ≤ n) :
    readModule n source text = .ok (outcome (Module.ofText source text)) := by
  unfold readModule Module.ofText
  rw [lex_eq (by omega), ok_bind]
  cases hx : Lexed.ofText source text with
  | error e => rfl
  | ok x =>
    have hlen := length_ofText hx
    simp only
    rw [slice_pop, ok_bind, index_last, ok_bind]
    obtain ⟨tokens, stop⟩ := x
    cases tokens with
    | nil => rfl
    | cons t ts =>
      have hroom : 8 * (t :: ts).length + 8 ≤ n := by simp only at hlen; omega
      have hdot : ∀ u ∈ t :: ts, Dotted u := dotted_ofText hx
      have hfirst : index (t :: ts) 0 = .ok t := index_append [] t ts
      have hfirst' : index (t :: ts ++ [.eof stop]) 0 = .ok t := index_append [] t _
      rw [if_neg (by simp), hfirst, ok_bind]
      simp only
      by_cases hk : t.kind = .kwModule
      · rw [if_neg fun h => h hk, if_pos hk]
        exact moduleOf_eq hdot hroom
      · rw [if_pos hk, if_neg hk, hfirst', ok_bind]
        rfl

theorem readFragment_eq {text : String} (hn : 8 * (text.toList.length + 1) ≤ n) :
    readFragment n source text = .ok (outcome (Fragment.ofText source text)) := by
  unfold readFragment Fragment.ofText
  rw [lex_eq (by omega), ok_bind]
  cases hx : Lexed.ofText source text with
  | error e => rfl
  | ok x =>
    have hlen := length_ofText hx
    simp only
    rw [slice_pop, ok_bind, index_last, ok_bind]
    obtain ⟨tokens, stop⟩ := x
    cases tokens with
    | nil => rfl
    | cons t ts =>
      have hroom : 8 * (t :: ts).length + 8 ≤ n := by simp only at hlen; omega
      have hdot : ∀ u ∈ t :: ts, Dotted u := dotted_ofText hx
      have hmodule : moduleOf n source (t :: ts) (Token.eof stop).pos =
          .ok (outcome (Module.ofTokens source (t :: ts) stop)) := moduleOf_eq hdot hroom
      have hfirst : index (t :: ts) 0 = .ok t := index_append [] t ts
      rw [if_neg (by simp), hfirst, ok_bind]
      simp only
      by_cases hk : t.kind = .kwModule
      · rw [if_pos hk, if_pos hk, hmodule, ok_bind]
        cases hm : Module.ofTokens source (t :: ts) stop with
        | ok m => rfl
        | error es =>
          cases es with
          | nil => exact absurd rfl (Module.ofTokens_error hm)
          | cons e es => rfl
      · rw [if_neg hk, if_neg hk]
        exact fragmentOf_eq hdot hroom

end Indexed

end LazySession
