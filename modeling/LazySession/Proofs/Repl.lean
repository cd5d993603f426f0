import LazySession.Proofs.Locate.Confined
import LazySession.Proofs.Session.Patience
import LazySession.Repl

/-!
# What the loop does with its input

The lines of an input fall into groups: a line that ends with a backslash goes on in the next one.
`Repl.serves_groups`: every group is handled once, one after the other, whatever became of those
before it, and what is printed is what they print. Lines that go on at the end of the input make no
group and are dropped.
-/

namespace LazySession

/-! ## Groups of lines -/

/-- How a line is written that goes on in the next one. -/
def goesOn (line : String) : String := line ++ "\\"

/-- Lines that make one text. Those in `front` go on, and are given without their backslashes. -/
structure LineGroup where
  front : List String
  last : String
  ends : last.toList.getLast? ≠ some '\\'

namespace LineGroup

/-- The lines as they are written. -/
def lines (g : LineGroup) : List String := g.front.map goesOn ++ [g.last]

def text (g : LineGroup) : String := Text.join "\n" (g.front ++ [g.last])

/-- The groups in some lines, behind those in `front` (last first), which go on; and the lines at the
end that go on, without their backslashes. -/
def cut (front : List String) : List String → List LineGroup × List String
  | [] => ([], front.reverse)
  | line :: lines =>
    if h : line.toList.getLast? = some '\\' then
      cut (String.ofList line.toList.dropLast :: front) lines
    else (⟨front.reverse, line, h⟩ :: (cut [] lines).1, (cut [] lines).2)

theorem goesOn_dropLast {line : String} (h : line.toList.getLast? = some '\\') :
    goesOn (String.ofList line.toList.dropLast) = line := by
  rw [goesOn, ← String.toList_inj]
  simpa using List.dropLast_append_getLast? '\\' h

theorem lines_cut (front ls : List String) :
    (cut front ls).1.flatMap lines ++ (cut front ls).2.map goesOn =
      front.reverse.map goesOn ++ ls := by
  induction ls generalizing front with
  | nil => simp [cut]
  | cons line ls ih =>
    unfold cut
    split
    · rename_i h
      rw [ih]
      simp [goesOn_dropLast h]
    · have hrest := ih []
      simp only [List.reverse_nil, List.map_nil, List.nil_append] at hrest
      simp [lines, hrest]

end LineGroup

/-! ## What the loop is asked for -/

/-- The text is not one of the commands. -/
def IsFragment (text : String) : Prop :=
  Text.trim text ∉ ["", ":quit", ":defs", ":prelude"] ∧ ∀ arg, Text.trim text ≠ ":bind " ++ arg

/-- A text is handled: a command is carried out, anything else is evaluated, and an error is
printed. `out` is what is printed. -/
inductive Handles (ws : Workshop) (text : String) (s : Session) (w : World) :
    (out : String) → Session → World → Prop
  | blank (h : Text.trim text = "") : Handles ws text s w "" s w
  | definitions (h : Text.trim text = ":defs") :
    Handles ws text s w (String.join (s.definitions.map fun d => Text.trim d ++ "\n")) s w
  | prelude (h : Text.trim text = ":prelude") : Handles ws text s w s.prelude s w
  | bound {arg : String} {s' : Session} {w' : World} (h : Text.trim text = ":bind " ++ arg)
    (hrun : (s.bindArgument ws arg).run w = (.ok s', w')) : Handles ws text s w "" s' w'
  | unbound {arg : String} {e : Error} {w' : World} (h : Text.trim text = ":bind " ++ arg)
    (hrun : (s.bindArgument ws arg).run w = (.error e, w')) :
    Handles ws text s w ("error: " ++ e.message ++ "\n") s w'
  | evaluated {v : HostValue} {s' : Session} {w' : World} (h : IsFragment text)
    (hrun : (s.evaluate ws text).run w = (.ok (v, s'), w')) :
    Handles ws text s w (printed ws.engine.setting.host w'.heap v) s' w'
  | failed {e : Error} {w' : World} (h : IsFragment text)
    (hrun : (s.evaluate ws text).run w = (.error e, w')) :
    Handles ws text s w ("error: " ++ e.message ++ "\n") s w'

/-- Texts are handled one after the other, each of them once. -/
inductive HandlesAll (ws : Workshop) :
    List String → Session → World → (outs : List String) → Session → World → Prop
  | nil (s : Session) (w : World) : HandlesAll ws [] s w [] s w
  | cons {text : String} {texts outs : List String} {out : String} {s s' s'' : Session}
    {w w' w'' : World} (h : Handles ws text s w out s' w')
    (hrest : HandlesAll ws texts s' w' outs s'' w'') :
    HandlesAll ws (text :: texts) s w (out :: outs) s'' w''

theorem Text.dropPrefix?_eq_some {pre s rest : String} :
    dropPrefix? pre s = some rest ↔ s = pre ++ rest := by
  unfold dropPrefix?
  constructor
  · intro h
    split at h
    · rename_i hpre
      obtain ⟨cs, hcs⟩ := List.isPrefixOf_iff_prefix.mp hpre
      cases h
      rw [← String.toList_inj]
      simp [← hcs]
    · cases h
  · rintro rfl
    simp [String.toList_append]

theorem Text.dropPrefix?_eq_none {pre s : String} (h : dropPrefix? pre s = none) (rest : String) :
    s ≠ pre ++ rest := by
  intro he
  rw [dropPrefix?_eq_some.mpr he] at h
  cases h

theorem Session.patient_bindArgument (ip : Interpreter) (g : Generator) (s : Session)
    (arg : String) : Loader.Holding World.Patient (s.bindArgument ⟨ip.engine, g⟩ arg) := by
  unfold bindArgument
  split
  · exact fun w => Act.meets_throw (.refl w)
  · exact patient_bind ip g s _ _

namespace Repl

variable (ip : Interpreter) (g : Generator)

/-- While nobody calls the work off, a text that does not ask for the end is handled, and the loop
goes on. -/
theorem handles_command {r : Repl} {text : String} (hquit : Text.trim text ≠ ":quit")
    (hlive : r.world.context.patience = .endless) :
    ∃ out s w, r.command ⟨ip.engine, g⟩ text = (⟨s, w, r.pending⟩, out, .more) ∧
      Handles ⟨ip.engine, g⟩ text r.session r.world out s w ∧ w.context.patience = .endless := by
  have stays : ∀ {out : String}, Handles ⟨ip.engine, g⟩ text r.session r.world out r.session r.world →
      ∃ out' s w, (r, out, Verdict.more) = (⟨s, w, r.pending⟩, out', .more) ∧
        Handles ⟨ip.engine, g⟩ text r.session r.world out' s w ∧ w.context.patience = .endless :=
    fun h => ⟨_, _, _, rfl, h, hlive⟩
  unfold command
  simp only [if_neg hquit]
  by_cases hblank : Text.trim text = ""
  · simp only [if_pos hblank]
    exact stays (.blank hblank)
  by_cases hdefs : Text.trim text = ":defs"
  · simp only [if_neg hblank, if_pos hdefs]
    exact stays (.definitions hdefs)
  by_cases hprelude : Text.trim text = ":prelude"
  · simp only [if_neg hblank, if_neg hdefs, if_pos hprelude]
    exact stays (.prelude hprelude)
  simp only [if_neg hblank, if_neg hdefs, if_neg hprelude]
  cases hbind : Text.dropPrefix? ":bind " (Text.trim text) with
  | some arg =>
    have htext := Text.dropPrefix?_eq_some.mp hbind
    have hpatient := (Session.patient_bindArgument ip g r.session arg).world r.world hlive
    simp only [attempt, Act.run_bind, Act.run_pure]
    cases hrun : (r.session.bindArgument ⟨ip.engine, g⟩ arg).run r.world with
    | mk result w =>
      rw [hrun] at hpatient
      cases result with
      | ok s => exact ⟨_, _, _, rfl, .bound htext hrun, hpatient⟩
      | error e => exact ⟨_, _, _, rfl, .unbound htext hrun, hpatient⟩
  | none =>
    have hfragment : IsFragment text :=
      ⟨by simp [hblank, hquit, hdefs, hprelude], Text.dropPrefix?_eq_none hbind⟩
    have hpatient := (Session.patient_evaluate ip g r.session text).world r.world hlive
    simp only [evaluate, attempt, Act.run_bind, Act.run_get, Act.run_pure]
    cases hrun : (r.session.evaluate ⟨ip.engine, g⟩ text).run r.world with
    | mk result w =>
      rw [hrun] at hpatient
      cases result with
      | ok p => exact ⟨_, _, _, rfl, .evaluated hfragment hrun, hpatient⟩
      | error e =>
        -- it is asked whether to go on, and it is
        have hgo : Act.inquire.run w = (.ok (), w) := by
          rw [Act.run_inquire, hpatient]
          obtain ⟨_, _, _, _, closed, patience⟩ := w
          cases hpatient
          rfl
        simp only [hgo]
        exact ⟨_, _, _, rfl, .failed hfragment hrun, hpatient⟩

/-! ## Lines -/

section
variable (ws : Workshop) (r : Repl)

theorem feed_goesOn (line : String) :
    r.feed ws (goesOn line) = ({ r with pending := r.pending ++ line ++ "\n" }, "", .more) := by
  have hline : (goesOn line).toList.reverse = '\\' :: line.toList.reverse := by simp [goesOn]
  unfold feed
  rw [hline]
  simp

theorem feed_ends {line : String} (h : line.toList.getLast? ≠ some '\\') :
    r.feed ws line = { r with pending := "" }.command ws (r.pending ++ line) := by
  unfold feed
  split
  · rename_i cs hcs
    rw [List.getLast?_eq_head?_reverse, hcs] at h
    exact absurd rfl h
  · rfl

/-- What is printed for some lines, and how it ends. -/
def answer (ls : List (Except Error String)) : String × Except Error Unit :=
  (String.join (runFrom ws r [] ls).1.reverse, (runFrom ws r [] ls).2)

theorem runFrom_eq (out : List String) (ls : List (Except Error String)) :
    runFrom ws r out ls = ((runFrom ws r [] ls).1 ++ out, (runFrom ws r [] ls).2) := by
  induction ls generalizing r out with
  | nil => rfl
  | cons l ls ih =>
    cases l with
    | error e => rfl
    | ok line =>
      simp only [runFrom]
      split
      · rw [ih, ih _ [_]]
        simp
      · rfl
      · rfl

variable {ws r}

theorem answer_more {r' : Repl} {line text : String} (h : r.feed ws line = (r', text, .more))
    (ls : List (Except Error String)) :
    answer ws r (.ok line :: ls) = (text ++ (answer ws r' ls).1, (answer ws r' ls).2) := by
  simp only [answer, runFrom, h]
  rw [runFrom_eq]
  simp

theorem answer_group (g : LineGroup) {r' : Repl} {out : String}
    (h : { r with pending := "" }.command ws (r.pending ++ g.text) = (r', out, .more))
    (ls : List (Except Error String)) :
    answer ws r (g.lines.map .ok ++ ls) = (out ++ (answer ws r' ls).1, (answer ws r' ls).2) := by
  obtain ⟨front, last, ends⟩ := g
  induction front generalizing r with
  | nil => exact answer_more ((feed_ends ws r ends).trans h) ls
  | cons line front ih =>
    have htext : LineGroup.text ⟨line :: front, last, ends⟩ =
        line ++ "\n" ++ LineGroup.text ⟨front, last, ends⟩ :=
      Text.join_cons line (by simp) "\n"
    rw [htext, ← String.append_assoc, ← String.append_assoc] at h
    have hrest := ih (r := { r with pending := r.pending ++ line ++ "\n" }) h
    refine (answer_more (feed_goesOn ws r line) _).trans ?_
    rw [String.empty_append]
    exact hrest

theorem answer_unfinished (lines : List String) :
    answer ws r ((lines.map goesOn).map .ok) = ("", .ok ()) := by
  induction lines generalizing r with
  | nil => rfl
  | cons line lines ih =>
    refine (answer_more (feed_goesOn ws r line) _).trans ?_
    rw [ih, String.empty_append]

end

theorem answer_groups (groups : List LineGroup) {r : Repl}
    (hquit : ∀ group ∈ groups, Text.trim group.text ≠ ":quit") (hpending : r.pending = "")
    (hlive : r.world.context.patience = .endless) (ls : List (Except Error String)) :
    ∃ outs s w, HandlesAll ⟨ip.engine, g⟩ (groups.map LineGroup.text) r.session r.world outs s w ∧
      answer ⟨ip.engine, g⟩ r ((groups.flatMap LineGroup.lines).map .ok ++ ls) =
        (String.join outs ++ (answer ⟨ip.engine, g⟩ ⟨s, w, ""⟩ ls).1,
          (answer ⟨ip.engine, g⟩ ⟨s, w, ""⟩ ls).2) := by
  induction groups generalizing r with
  | nil =>
    obtain ⟨s, w, pending⟩ := r
    cases hpending
    exact ⟨[], s, w, .nil s w, by simp⟩
  | cons group groups ih =>
    obtain ⟨s, w, pending⟩ := r
    cases hpending
    obtain ⟨hquit₁, hquit⟩ := List.forall_mem_cons.mp hquit
    obtain ⟨out, s₁, w₁, hcommand, hhandles, hlive₁⟩ :=
      handles_command ip g (r := ⟨s, w, ""⟩) hquit₁ hlive
    obtain ⟨outs, s₂, w₂, hall, hanswer⟩ := ih (r := ⟨s₁, w₁, ""⟩) hquit rfl hlive₁
    refine ⟨out :: outs, s₂, w₂, .cons hhandles hall, ?_⟩
    rw [List.flatMap_cons, List.map_append, List.append_assoc,
      answer_group group (r := ⟨s, w, ""⟩) (by rw [String.empty_append]; exact hcommand), hanswer]
    simp [String.append_assoc]

/-! ## Inputs -/

/-- The lines of an input, however long they are. -/
def lines (input : String) : List String :=
  let pieces := Text.split '\n' input
  (if pieces.getLast? = some "" then pieces.dropLast else pieces).map dropReturn

theorem inputLines_eq {input : String}
    (h : ∀ piece ∈ Text.split '\n' input, piece.utf8ByteSize < lineLimit) :
    inputLines input = (lines input).map .ok := by
  unfold inputLines lines
  simp only [List.map_map]
  refine List.map_congr_left fun piece hpiece => ?_
  have hmem : piece ∈ Text.split '\n' input := by
    split at hpiece
    · exact List.dropLast_subset _ hpiece
    · exact hpiece
  simp [inputLine, h piece hmem]

/-- The groups in an input, and the lines at its end that go on. -/
def groups (input : String) : List LineGroup × List String := LineGroup.cut [] (lines input)

/-- While nobody calls the work off and no group asks for the end, all groups in an input of short
lines are handled in their order, each of them once, whatever errors there are, and what is printed is
what they print. An input that ends within a group loses the lines of it. -/
theorem serves_groups (r : Repl) (input : String) (hpending : r.pending = "")
    (hlive : r.world.context.patience = .endless)
    (hshort : ∀ piece ∈ Text.split '\n' input, piece.utf8ByteSize < lineLimit)
    (hquit : ∀ group ∈ (groups input).1, Text.trim group.text ≠ ":quit") :
    (groups input).1.flatMap LineGroup.lines ++ (groups input).2.map goesOn = lines input ∧
      ∃ outs s w,
        HandlesAll ⟨ip.engine, g⟩ ((groups input).1.map LineGroup.text) r.session r.world outs s w ∧
        r.run ⟨ip.engine, g⟩ input = (String.join outs, .ok ()) := by
  have hlines : (groups input).1.flatMap LineGroup.lines ++ (groups input).2.map goesOn =
      lines input := LineGroup.lines_cut [] (lines input)
  obtain ⟨outs, s, w, hall, hanswer⟩ := answer_groups ip g (groups input).1 hquit hpending hlive
    (((groups input).2.map goesOn).map .ok)
  refine ⟨hlines, outs, s, w, hall, ?_⟩
  have hrun : r.run ⟨ip.engine, g⟩ input = answer ⟨ip.engine, g⟩ r (inputLines input) := rfl
  rw [hrun, inputLines_eq hshort, ← hlines, List.map_append, hanswer, answer_unfinished]
  simp

/-- An error, a blank line, a definition over two lines, a command, and a last line that goes on. -/
theorem serves_groups_unfinished :
    let input := "1 +\n\nx = \\\n  y\n:bind y=2\nx = 2\nx * 3\n4 \\\n"
    let r : Repl := { session := .fresh (Template.generator {}), world := { cache := .disabled } }
    let ip : Interpreter := ⟨⟨[], ".mhs", []⟩, ⟨.empty, 10⟩⟩
    (groups input).2 = ["4 "] ∧ (∀ piece ∈ Text.split '\n' input, piece.utf8ByteSize < lineLimit) ∧
      (∀ group ∈ (groups input).1, Text.trim group.text ≠ ":quit") ∧
      ∃ outs s w, HandlesAll ip.workshop
          ["1 +", "", "x = \n  y", ":bind y=2", "x = 2", "x * 3"] r.session r.world outs s w ∧
        r.run ip.workshop input = (String.join outs, .ok ()) ∧
        String.join outs = "error: <interactive>:1:4: unexpected end of input\n" ++
          "error: <interactive>:2:3: undefined variable y\n: 6\n" := by
  intro input r ip
  have hgroups : (groups input).1.map LineGroup.text =
      ["1 +", "", "x = \n  y", ":bind y=2", "x = 2", "x * 3"] := by decide +kernel
  have hshort : ∀ piece ∈ Text.split '\n' input, piece.utf8ByteSize < lineLimit := by decide +kernel
  have hquit : ∀ group ∈ (groups input).1, Text.trim group.text ≠ ":quit" := by decide +kernel
  obtain ⟨-, outs, s, w, hall, hrun⟩ :=
    serves_groups ip (Template.generator {}) r input rfl rfl hshort hquit
  rw [hgroups] at hall
  have hout : (r.run ip.workshop input).1 = "error: <interactive>:1:4: unexpected end of input\n" ++
      "error: <interactive>:2:3: undefined variable y\n: 6\n" := by decide +kernel
  refine ⟨by decide +kernel, hshort, hquit, outs, s, w, hall, hrun, ?_⟩
  rw [← hout]
  exact (congrArg Prod.fst hrun).symm

end Repl

end LazySession
