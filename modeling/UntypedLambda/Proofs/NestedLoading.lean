import Mathlib.Data.Finset.Card
import Mathlib.Data.List.Chain
import Mathlib.Logic.Relation
import Mathlib.Order.WellFounded
import UntypedLambda.Proofs.EnoughBudget

/-!
# Files that load files

A file leads to another one if it has a line that loads it. Nothing keeps a file from leading back
to itself, and a load of such a file does not return, whatever its budget. That is the only way for
a load not to return, as long as each evaluation does.

* All the lines of a file are executed, even after failures, and the files stay what they are
  (`KeepsFiles`). So whether a load returns within a depth is a matter of the files alone:
  `FileTree.EndsWithin` says that no chain of files is longer. A load that returns has come to the
  end of every chain (`endsWithin_of_load`), and at the end of every chain a load returns
  (`EvaluationsReturn.exists_steps_load`).
* The second half has to say which evaluations return. These are the ones that the load comes to, or
  that a load nested in it comes to (`LoadCall.EvaluationsReturn`).
* There are only so many names to lead to (`FileTree.loadNames`). A chain on which no file leads
  back to itself takes a new one at each step, so it is bounded by their number
  (`endsWithin_of_acyclic`).
-/

namespace UntypedLambda

open Relation (TransGen ReflTransGen)
open Text (Bytes)

/-! ### Where a walk ends -/

namespace FileTree

variable {tree : FileTree}

/-- A file that was come to is one of the tree. -/
def Location.IsIn (tree : FileTree) : Location → Prop
  | .file place contents => tree.files.lookup place = some contents
  | .folder _ => True
  | .outside => True

theorem isIn_of_lookup {place : FilePlace} {location : Location}
    (h : tree.lookup place = .ok location) : location.IsIn tree := by
  rw [lookup] at h
  split at h
  · next contents hfile =>
    cases h
    exact hfile
  · split at h <;> cases h
    trivial

/-- The step: one component leads from a place in the tree to a place in the tree. -/
theorem isIn_of_enter {location next : Location} {component : String}
    (hlocation : location.IsIn tree) (h : tree.enter location component = .ok next) :
    next.IsIn tree := by
  rcases location with ⟨place, contents⟩ | place | -
  · cases h
  · simp only [enter] at h
    split at h
    · cases h
      trivial
    · split at h
      · cases h
        split <;> trivial
      · split at h
        · cases h
        · exact isIn_of_lookup h
  · simp only [enter] at h
    split at h
    · cases h
      trivial
    · split at h <;> cases h

/-- The run: so do several. -/
theorem isIn_of_walk {location last : Location} {components : List String}
    (hlocation : location.IsIn tree) (h : tree.walk location components = .ok last) :
    last.IsIn tree := by
  induction components generalizing location with
  | nil =>
    cases h
    exact hlocation
  | cons component components ih =>
    rw [walk] at h
    split at h
    · cases h
    · next next henter => exact ih (isIn_of_enter hlocation henter) h

theorem isIn_start (path : String) : (start path).IsIn tree := by
  rw [start]
  split <;> trivial

/-- What is read under a name are the contents of some file. -/
theorem exists_lookup_of_read {name : String} {contents : Bytes}
    (h : tree.read name = .ok contents) : ∃ place, tree.files.lookup place = some contents := by
  rw [read] at h
  split at h
  · cases h
  · split at h
    · cases h
    · next place _ hwalk =>
      cases h
      exact ⟨place, isIn_of_walk (isIn_start name) hwalk⟩
    · cases h

end FileTree

/-! ### Lines that load -/

theorem mem_executableLines {text line : String} :
    line ∈ executableLines text ↔ line ∈ Text.logicalLines text ∧ isComment line = false := by
  simp [executableLines]

/-- The name on a line that loads a file. -/
def loadName? (line : String) : Option String :=
  match Command.ofLine? line with
  | some (.ok (.load file)) => some file
  | _ => none

namespace FileTree

variable {tree : FileTree}

/-- The lines that are executed in one of the files or another. -/
def lines (tree : FileTree) : List String :=
  (tree.files.filterMap fun file ↦ tree.files.lookup file.1).flatMap fun contents ↦
    match FileError.decode contents with
    | .error _ => []
    | .ok text => executableLines text

/-- The names on the lines that load a file, each of them once. -/
def loadNames (tree : FileTree) : Finset String := (tree.lines.filterMap loadName?).toFinset

/-- A file leads to another one: what is read under its name has a logical line, not a comment,
that loads the other one. -/
def Leads (tree : FileTree) (file file' : String) : Prop :=
  ∃ text, tree.text file = .ok text ∧ ∃ line ∈ Text.logicalLines text,
    isComment line = false ∧ Command.ofLine? line = some (.ok (.load file'))

theorem mem_lines {file text line : String} (htext : tree.text file = .ok text)
    (hline : line ∈ executableLines text) : line ∈ tree.lines := by
  rw [FileTree.text] at htext
  rcases hread : tree.read file with cause | contents <;> rw [hread] at htext
  · cases htext
  · obtain ⟨place, hlookup⟩ := exists_lookup_of_read hread
    obtain ⟨front, rear, hfiles, -⟩ := List.lookup_eq_some_iff.1 hlookup
    refine List.mem_flatMap.2 ⟨contents, List.mem_filterMap.2 ⟨(place, contents), ?_, hlookup⟩, ?_⟩
    · rw [hfiles]
      exact List.mem_append_right front List.mem_cons_self
    · rw [show FileError.decode contents = .ok text from htext]
      exact hline

theorem Leads.mem_loadNames {file file' : String} (h : tree.Leads file file') :
    file' ∈ tree.loadNames := by
  obtain ⟨text, htext, line, hline, hcomment, hload⟩ := h
  have hmem := mem_lines htext (mem_executableLines.2 ⟨hline, hcomment⟩)
  rw [loadNames, List.mem_toFinset]
  exact List.mem_filterMap.2 ⟨line, hmem, by rw [loadName?, hload]⟩

/-! ### Chains of files -/

/-- Chains of files that start with `file`, each of them leading to the next, have at most `n`
members. -/
def EndsWithin (tree : FileTree) : (n : Nat) → (file : String) → Prop
  | 0, _ => False
  | n + 1, file => ∀ file', tree.Leads file file' → tree.EndsWithin n file'

/-- No file that is come to leads back to itself. -/
def Acyclic (tree : FileTree) (file : String) : Prop :=
  ∀ file', ReflTransGen tree.Leads file file' → ¬ TransGen tree.Leads file' file'

theorem acc_of_endsWithin {n : Nat} {file : String} (h : tree.EndsWithin n file) :
    Acc (Function.swap tree.Leads) file := by
  induction n generalizing file with
  | zero => cases h
  | succ n ih => exact ⟨file, fun file' hleads ↦ ih (h file' hleads)⟩

/-- From the end of all chains no way leads back. -/
theorem acyclic_of_acc {file : String} (h : Acc (Function.swap tree.Leads) file) :
    tree.Acyclic file := by
  induction h with
  | intro file _ ih =>
    -- A way back to `file` starts with a file that leads back to itself too.
    have hback : ¬ TransGen tree.Leads file file := by
      intro hcycle
      obtain ⟨file', hleads, hrest⟩ := TransGen.head'_iff.1 hcycle
      exact ih file' hleads file' .refl (TransGen.tail' hrest hleads)
    intro file' hreach
    rcases hreach.cases_head with rfl | ⟨next, hleads, hrest⟩
    · exact hback
    · exact ih next hleads file' hrest

/-- Without a way back, each step of a chain takes a name that does not come again. By induction on
the names that are left. -/
theorem endsWithin_of_acyclic {file : String} {names : Finset String}
    (hnames : ∀ file', TransGen tree.Leads file file' → file' ∈ names)
    (h : tree.Acyclic file) : tree.EndsWithin (names.card + 1) file := by
  induction names using Finset.strongInduction generalizing file with
  | H names ih =>
    intro next hleads
    have hmem : next ∈ names := hnames next (.single hleads)
    -- Behind `next` it does not come again, so the chains from there do with one name less.
    rw [← Finset.card_erase_add_one hmem]
    refine ih _ (Finset.erase_ssubset hmem) (fun file' hreach ↦ ?_) fun file' hreach ↦
      h file' (.head hleads hreach)
    refine Finset.mem_erase.2 ⟨?_, hnames file' (.head hleads hreach)⟩
    rintro rfl
    exact h file' (.single hleads) hreach

theorem endsWithin_card_loadNames {file : String} (h : tree.Acyclic file) :
    tree.EndsWithin (tree.loadNames.card + 1) file := by
  refine endsWithin_of_acyclic (fun file' hreach ↦ ?_) h
  obtain ⟨last, -, hleads⟩ := TransGen.tail'_iff.1 hreach
  exact hleads.mem_loadNames

/-- There is no infinite chain if and only if there is no way back. -/
theorem not_exists_chain_iff_acyclic {file : String} :
    (¬ ∃ chain : Nat → String, chain 0 = file ∧ ∀ i, tree.Leads (chain i) (chain (i + 1))) ↔
      tree.Acyclic file := by
  have hacc := not_iff_comm.1
    (not_acc_iff_exists_descending_chain (r := Function.swap tree.Leads) (x := file))
  exact hacc.trans ⟨acyclic_of_acc, fun h ↦ acc_of_endsWithin (endsWithin_card_loadNames h)⟩

end FileTree

/-! ### The files stay what they are -/

/-- The computation leaves the files alone. -/
def KeepsFiles {α : Type} (x : SessionT WorldM α) : Prop :=
  ∀ ⦃session w r⦄, x session w = some r → r.2.files = w.files

namespace KeepsFiles

variable {α β : Type}

protected theorem pure (a : α) : KeepsFiles (pure a) := by
  intro session w r h
  cases h
  rfl

protected theorem bind {x : SessionT WorldM α} {f : α → SessionT WorldM β} (hx : KeepsFiles x)
    (hf : ∀ a, KeepsFiles (f a)) : KeepsFiles (x >>= f) := by
  intro session w r h
  obtain ⟨a, session', w', hrun, hrest⟩ := SessionT.bind_apply_iff.1 h
  exact (hf a hrest).trans (hx hrun)

protected theorem mapM {f : α → SessionT WorldM β} {as : List α} (hf : ∀ a, KeepsFiles (f a)) :
    KeepsFiles (as.mapM f) := by
  induction as with
  | nil => exact .pure []
  | cons a as ih =>
    rw [List.mapM_cons]
    exact (hf a).bind fun b ↦ ih.bind fun bs ↦ .pure (b :: bs)

end KeepsFiles

namespace Session

theorem keepsFiles_evaluate (budget : Budget) (line : String) :
    KeepsFiles (evaluate budget line) := by
  intro session w r h
  rw [evaluate_apply] at h
  rcases hread : Expr.read line with fault | e <;> rw [hread] at h
  · cases h
    rfl
  · obtain ⟨result, -, rfl⟩ := Option.map_eq_some_iff.1 h
    rfl

theorem keepsFiles_execute_of_load {budget : Budget}
    (hload : ∀ file, KeepsFiles (load budget (.file file))) (line : String) :
    KeepsFiles (execute budget line) := by
  rcases execute_cases line with ⟨file, hfile⟩ | ⟨hcommand, hblank⟩ | hother
  · intro session w r h
    rw [execute_of_load hfile, loadReported_apply] at h
    obtain ⟨result, hresult, rfl⟩ := Option.map_eq_some_iff.1 h
    exact hload file hresult
  · rw [execute_of_ofLine?_eq_none hcommand hblank]
    exact (keepsFiles_evaluate budget line).bind fun normal ↦ .pure normal.isSome
  · intro session w r h
    obtain ⟨r', hr', hfiles⟩ := hother session w
    rw [hr'] at h
    cases h
    exact hfiles

/-- A load leaves the files alone. By induction on the depth. -/
theorem keepsFiles_load (steps depth lines : Nat) (source : Source) :
    KeepsFiles (load ⟨steps, depth, lines⟩ source) := by
  induction depth generalizing source with
  | zero => exact fun _ _ _ h ↦ nomatch h
  | succ depth ih =>
    have hexecute : ∀ line, KeepsFiles (execute ⟨steps, depth, lines⟩ line) :=
      keepsFiles_execute_of_load fun file ↦ ih (.file file)
    have hbehind : ∀ w : World, (w.behind source).files = w.files := by
      rcases source with name | - <;> exact fun w ↦ rfl
    intro session w r h
    rcases htext : w.text source with cause | text
    · rw [load_apply_of_error htext] at h
      cases h
      exact hbehind w
    · rw [load_apply htext] at h
      obtain ⟨result, hresult, rfl⟩ := Option.map_eq_some_iff.1 h
      exact (KeepsFiles.mapM hexecute hresult).trans (hbehind w)

theorem keepsFiles_execute (budget : Budget) (line : String) : KeepsFiles (execute budget line) :=
  keepsFiles_execute_of_load (fun file ↦ keepsFiles_load _ _ _ (.file file)) line

theorem keepsFiles_executeAll (budget : Budget) (lines : List String) :
    KeepsFiles (executeAll budget lines) :=
  .mapM (keepsFiles_execute budget)

/-! ### Lines one after another -/

section Lines

variable {budget : Budget} {line : String} {lines : List String}
  {session session₁ session₂ : Session} {w w₁ w₂ : World} {ok : Bool} {oks : List Bool}

theorem executeAll_cons
    (hline : (execute budget line : SessionT WorldM _) session w = some ((ok, session₁), w₁))
    (hlines : (executeAll budget lines : SessionT WorldM _) session₁ w₁ =
      some ((oks, session₂), w₂)) :
    (executeAll budget (line :: lines) : SessionT WorldM _) session w =
      some ((ok :: oks, session₂), w₂) := by
  rw [executeAll, List.mapM_cons, SessionT.bind_apply hline]
  exact SessionT.bind_apply hlines

theorem executeAll_concat
    (hlines : (executeAll budget lines : SessionT WorldM _) session w =
      some ((oks, session₁), w₁))
    (hline : (execute budget line : SessionT WorldM _) session₁ w₁ = some ((ok, session₂), w₂)) :
    (executeAll budget (lines ++ [line]) : SessionT WorldM _) session w =
      some ((oks ++ [ok], session₂), w₂) := by
  rw [executeAll, List.mapM_append]
  refine (SessionT.bind_apply hlines).trans ?_
  rw [List.mapM_cons, bind_assoc]
  exact SessionT.bind_apply hline

end Lines

/-- All the lines are executed, each of them with the files as they are. -/
theorem exists_execute_of_mem {budget : Budget} {lines : List String} {line : String}
    (hline : line ∈ lines) {session : Session} {w : World} {r : (List Bool × Session) × World}
    (h : (executeAll budget lines : SessionT WorldM _) session w = some r) :
    ∃ session' w' r', w'.files = w.files ∧
      (execute budget line : SessionT WorldM _) session' w' = some r' := by
  induction lines generalizing session w r with
  | nil => cases hline
  | cons first lines ih =>
    rw [executeAll, List.mapM_cons] at h
    obtain ⟨ok, session₁, w₁, hfirst, h⟩ := SessionT.bind_apply_iff.1 h
    obtain ⟨oks, session₂, w₂, hlines, -⟩ := SessionT.bind_apply_iff.1 h
    rcases List.mem_cons.1 hline with rfl | hline
    · exact ⟨session, w, _, rfl, hfirst⟩
    · obtain ⟨session', w', r', hfiles, hrun⟩ := ih hline hlines
      exact ⟨session', w', r', hfiles.trans (keepsFiles_execute budget first hfirst), hrun⟩

/-! ### A load that returns -/

/-- A load that returns within a depth has come to the end of all chains of files. By induction on
the depth. -/
theorem endsWithin_of_load {steps depth lines : Nat} {file : String} {session : Session} {w : World}
    {r : (Except LoadError Nat × Session) × World}
    (h : (load ⟨steps, depth, lines⟩ (.file file) : SessionT WorldM _) session w = some r) :
    w.files.EndsWithin depth file := by
  induction depth generalizing file session w r with
  | zero => cases h
  | succ depth ih =>
    rintro file' ⟨text, htext, line, hline, hcomment, hload⟩
    rw [load_apply (show w.text (.file file) = .ok text from htext)] at h
    obtain ⟨result, hresult, -⟩ := Option.map_eq_some_iff.1 h
    obtain ⟨session', w', r', hfiles, hrun⟩ :=
      exists_execute_of_mem (mem_executableLines.2 ⟨hline, hcomment⟩) hresult
    rw [execute_of_load hload, loadReported_apply] at hrun
    obtain ⟨result', hresult', -⟩ := Option.map_eq_some_iff.1 hrun
    rw [← show w'.files = w.files from hfiles]
    exact ih hresult'

end Session

/-! ### Nested loads -/

/-- A file that is loaded, by some session and in some world. -/
structure LoadCall where
  file : String
  session : Session
  world : World

namespace LoadCall

open Session

/-- A line of the file has its turn, the ones before it having been executed. -/
def ComesTo (call : LoadCall) (line : String) (session : Session) (world : World) : Prop :=
  ∃ text before after budget oks, call.world.files.text call.file = .ok text ∧
    executableLines text = before ++ line :: after ∧
    (executeAll budget before : SessionT WorldM _) (call.session.loading (.file call.file))
      call.world = some ((oks, session), world)

/-- A line of the file makes the other call. -/
def Nests (call call' : LoadCall) : Prop :=
  ∃ line, call.ComesTo line call'.session call'.world ∧
    Command.ofLine? line = some (.ok (.load call'.file))

/-- Each evaluation that the call comes to returns, those of calls nested in it included. -/
def EvaluationsReturn (call : LoadCall) : Prop :=
  ∀ call', ReflTransGen Nests call call' → ∀ line session world,
    call'.ComesTo line session world → Command.ofLine? line = none → isBlankLine line = false →
      ∃ steps, ((evaluate ⟨steps, 0, 0⟩ line : SessionT WorldM _) session world).isSome

variable {call call' : LoadCall} {line : String} {session : Session} {world : World}

theorem ComesTo.files_eq (h : call.ComesTo line session world) :
    world.files = call.world.files := by
  obtain ⟨text, before, after, budget, oks, -, -, hbefore⟩ := h
  exact keepsFiles_executeAll budget before hbefore

theorem ComesTo.exists_mem (h : call.ComesTo line session world) :
    ∃ text, call.world.files.text call.file = .ok text ∧ line ∈ executableLines text := by
  obtain ⟨text, before, after, budget, oks, htext, hlines, -⟩ := h
  exact ⟨text, htext, by rw [hlines]; exact List.mem_append_right before List.mem_cons_self⟩

theorem ComesTo.leads (h : call.ComesTo line session world) {file : String}
    (hload : Command.ofLine? line = some (.ok (.load file))) :
    call.world.files.Leads call.file file := by
  obtain ⟨text, htext, hmem⟩ := h.exists_mem
  obtain ⟨hline, hcomment⟩ := mem_executableLines.1 hmem
  exact ⟨text, htext, line, hline, hcomment, hload⟩

theorem Nests.files_eq (h : call.Nests call') : call'.world.files = call.world.files := by
  obtain ⟨line, hcomes, -⟩ := h
  exact hcomes.files_eq

theorem Nests.leads (h : call.Nests call') : call.world.files.Leads call.file call'.file := by
  obtain ⟨line, hcomes, hload⟩ := h
  exact hcomes.leads hload

/-- Calls that are nested in each other are as many as the members of a chain of files. -/
theorem length_le_of_isChain {n : Nat} {calls : List LoadCall}
    (h : List.IsChain Nests (call :: calls)) (hends : call.world.files.EndsWithin n call.file) :
    (call :: calls).length ≤ n := by
  induction calls generalizing call n with
  | nil =>
    rcases n with - | n
    · cases hends
    · exact Nat.succ_le_succ n.zero_le
  | cons call' calls ih =>
    obtain ⟨hnests, hrest⟩ := List.isChain_cons_cons.1 h
    rcases n with - | n
    · cases hends
    · have hends' := hends call'.file hnests.leads
      rw [← hnests.files_eq] at hends'
      exact Nat.succ_le_succ (ih hrest hends')

theorem EvaluationsReturn.of_nests (h : call.EvaluationsReturn) (hnests : call.Nests call') :
    call'.EvaluationsReturn :=
  fun call'' hreach ↦ h call'' (.head hnests hreach)

/-! ### A load whose chains end -/

/-- If each line of a file returns when it has its turn, then so do the lines one after another. By
induction on the lines that are left; those before have been executed under some budget. -/
theorem exists_steps_executeAll {depth : Nat} {text : String}
    (htext : call.world.files.text call.file = .ok text)
    (hline : ∀ line session world, call.ComesTo line session world → ∃ steps r,
      (execute ⟨steps, depth, 0⟩ line : SessionT WorldM _) session world = some r)
    {before after : List String} (hlines : executableLines text = before ++ after)
    {budget : Budget} {oks : List Bool}
    (hbefore : (executeAll budget before : SessionT WorldM _)
      (call.session.loading (.file call.file)) call.world = some ((oks, session), world)) :
    ∃ steps r, (executeAll ⟨steps, depth, 0⟩ after : SessionT WorldM _) session world = some r := by
  induction after generalizing before budget oks session world with
  | nil => exact ⟨0, _, rfl⟩
  | cons line after ih =>
    obtain ⟨steps, ⟨⟨ok, session₁⟩, world₁⟩, hrun⟩ :=
      hline line session world ⟨text, before, after, budget, oks, htext, hlines, hbefore⟩
    -- One budget for the lines before and this one, and one for this one and those behind.
    let upTo : Budget := ⟨max budget.steps steps, max budget.depth depth, 0⟩
    have hbefore' : Extends (executeAll budget before) (executeAll upTo before) :=
      extends_executeAll (le_max_left _ _) (le_max_left _ _) before
    have hrun' : Extends (execute ⟨steps, depth, 0⟩ line) (execute upTo line) :=
      extends_execute (le_max_right _ _) (le_max_right _ _) line
    obtain ⟨steps', ⟨⟨oks', session₂⟩, world₂⟩, hafter⟩ :=
      ih (by simpa using hlines) (executeAll_concat (hbefore' hbefore) (hrun' hrun))
    let fromOn : Budget := ⟨max steps steps', depth, 0⟩
    have hrun'' : Extends (execute ⟨steps, depth, 0⟩ line) (execute fromOn line) :=
      extends_execute (le_max_left _ _) (le_refl depth) line
    have hafter' : Extends (executeAll ⟨steps', depth, 0⟩ after) (executeAll fromOn after) :=
      extends_executeAll (le_max_right _ _) (le_refl depth) after
    exact ⟨max steps steps', _, executeAll_cons (hrun'' hrun) (hafter' hafter)⟩

/-- A line that has its turn returns, if the file returns that it may load. -/
theorem EvaluationsReturn.exists_steps_execute {depth : Nat} (h : call.EvaluationsReturn)
    (hcomes : call.ComesTo line session world)
    (hload : ∀ file, Command.ofLine? line = some (.ok (.load file)) → ∃ steps r,
      (load ⟨steps, depth, 0⟩ (.file file) : SessionT WorldM _) session world = some r) :
    ∃ steps r, (execute ⟨steps, depth, 0⟩ line : SessionT WorldM _) session world = some r := by
  rcases execute_cases line with ⟨file, hfile⟩ | ⟨hcommand, hblank⟩ | hother
  · obtain ⟨steps, r, hrun⟩ := hload file hfile
    refine ⟨steps, ?_⟩
    rw [execute_of_load hfile, loadReported_apply, hrun]
    exact ⟨_, rfl⟩
  · obtain ⟨steps, hsome⟩ := h call .refl line session world hcomes hcommand hblank
    obtain ⟨r, hrun⟩ := Option.isSome_iff_exists.1 hsome
    refine ⟨steps, ?_⟩
    rw [execute_of_ofLine?_eq_none hcommand hblank]
    exact ⟨_, SessionT.bind_apply (extends_evaluate (le_refl steps) line hrun)⟩
  · obtain ⟨r, hrun, -⟩ := hother session world
    exact ⟨0, r, hrun _⟩

/-- A load returns within a depth if all chains of files end there and the evaluations return. By
induction on the depth. -/
theorem EvaluationsReturn.exists_steps_load {depth : Nat} (h : call.EvaluationsReturn)
    (hends : call.world.files.EndsWithin depth call.file) :
    ∃ steps r, (load ⟨steps, depth, 0⟩ (.file call.file) : SessionT WorldM _) call.session
      call.world = some r := by
  induction depth generalizing call with
  | zero => cases hends
  | succ depth ih =>
    rcases htext : call.world.text (.file call.file) with cause | text
    · exact ⟨0, _, load_apply_of_error htext⟩
    have hline : ∀ line session world, call.ComesTo line session world → ∃ steps r,
        (execute ⟨steps, depth, 0⟩ line : SessionT WorldM _) session world = some r := by
      intro line session world hcomes
      refine h.exists_steps_execute hcomes fun file hfile ↦ ?_
      have hends' : world.files.EndsWithin depth file := by
        rw [hcomes.files_eq]
        exact hends file (hcomes.leads hfile)
      have hnested : (⟨file, session, world⟩ : LoadCall).EvaluationsReturn :=
        h.of_nests ⟨line, hcomes, hfile⟩
      exact ih hnested hends'
    have hstart : (executeAll ⟨0, 0, 0⟩ [] : SessionT WorldM _)
        (call.session.loading (.file call.file)) call.world =
          some (([], call.session.loading (.file call.file)), call.world) := rfl
    obtain ⟨steps, r, hrun⟩ :=
      exists_steps_executeAll htext hline (List.nil_append (executableLines text)).symm hstart
    exact ⟨steps, _, (load_apply htext).trans (congrArg (Option.map _) hrun)⟩

/-- Where the files have nothing to reduce, there is nothing to wait for. -/
theorem evaluationsReturn_of_normal (call : LoadCall)
    (h : ∀ line ∈ call.world.files.lines, ∀ e ∈ (Expr.read line).toOption, e.isReducible = false) :
    call.EvaluationsReturn := by
  intro call' hreach line session world hcomes _ _
  have hfiles : call'.world.files = call.world.files := by
    clear hcomes
    induction hreach with
    | refl => rfl
    | tail _ hnests ih => exact hnests.files_eq.trans ih
  obtain ⟨text, htext, hmem⟩ := hcomes.exists_mem
  have hline : line ∈ call.world.files.lines := hfiles ▸ FileTree.mem_lines htext hmem
  refine ⟨1, ?_⟩
  rw [evaluate_apply]
  rcases hread : Expr.read line with fault | e
  · rfl
  · have hnormal : e.isReducible = false := h line hline e (by rw [hread]; rfl)
    simp [evaluated, Expr.trace_of_normal hnormal Nat.one_pos]

end LoadCall

namespace Session

/-- **Nested loading returns if and only if no file leads back to itself.**

Let each evaluation return that a load of `file` comes to, in the file or in those nested below it.
Then the load returns, with a count or an error, if and only if there is no infinite chain of files
that starts with `file` and on which each leads to the next. There is none exactly if no file that
is come to leads back to itself.

If it returns, files are nested to a depth that is at most one more than the number of names on the
lines that load a file. A budget of that depth is enough, so that a greater one leads to the same
result, and no more loads than that are ever nested in each other. -/
theorem load_returns_iff_no_file_leads_back (file : String) (session : Session) (world : World)
    (h : (⟨file, session, world⟩ : LoadCall).EvaluationsReturn) :
    let returns := ∃ budget,
      ((load budget (.file file) : SessionT WorldM _) session world).isSome = true
    let endless := ∃ chain : Nat → String,
      chain 0 = file ∧ ∀ i, world.files.Leads (chain i) (chain (i + 1))
    (returns ↔ ¬ endless) ∧
    (¬ endless ↔ world.files.Acyclic file) ∧
    (returns →
      (∃ steps result,
        (∀ depth lines, world.files.loadNames.card + 1 ≤ depth →
          (load ⟨steps, depth, lines⟩ (.file file) : SessionT WorldM _) session world =
            some result) ∧
        ∀ budget result',
          (load budget (.file file) : SessionT WorldM _) session world = some result' →
            result' = result) ∧
      ∀ calls, List.IsChain LoadCall.Nests (⟨file, session, world⟩ :: calls) →
        calls.length + 1 ≤ world.files.loadNames.card + 1) := by
  intro returns endless
  have hchain : ¬ endless ↔ world.files.Acyclic file := FileTree.not_exists_chain_iff_acyclic
  have hacyclic : returns → world.files.Acyclic file := by
    rintro ⟨⟨steps, depth, lines⟩, hsome⟩
    obtain ⟨result, hrun⟩ := Option.isSome_iff_exists.1 hsome
    exact FileTree.acyclic_of_acc (FileTree.acc_of_endsWithin (endsWithin_of_load hrun))
  have hreturns : world.files.Acyclic file → ∃ steps result,
      (load ⟨steps, world.files.loadNames.card + 1, 0⟩ (.file file) : SessionT WorldM _) session
        world = some result :=
    fun hacyclic ↦ h.exists_steps_load (FileTree.endsWithin_card_loadNames hacyclic)
  refine ⟨?_, hchain, fun hreturn ↦ ⟨?_, fun calls hcalls ↦ ?_⟩⟩
  · rw [hchain]
    refine ⟨hacyclic, fun hacyclic ↦ ?_⟩
    obtain ⟨steps, result, hrun⟩ := hreturns hacyclic
    exact ⟨_, Option.isSome_of_eq_some hrun⟩
  · obtain ⟨steps, result, hrun⟩ := hreturns (hacyclic hreturn)
    refine ⟨steps, result, fun depth lines hdepth ↦ ?_, fun budget result' hrun' ↦ ?_⟩
    · exact extends_load (le_refl steps) hdepth 0 lines (.file file) hrun
    · exact load_unique hrun' hrun
  · exact LoadCall.length_le_of_isChain hcalls
      (FileTree.endsWithin_card_loadNames (hacyclic hreturn))

/-- Three files of which the first loads the second, the second the third on a line that continues,
and the first loads the third once more. A comment loads nothing. -/
def threeFiles : World where
  files.files := [(["a"], Text.encode "# :load a\n:load b\nλx. x\n :l c"),
    (["b"], Text.encode ":load &\nc\n)"), (["c"], Text.encode "y z")]

/-- A file that loads itself. -/
def oneFile : World where
  files.files := [(["a"], Text.encode "y\n:load a")]

/-- The three files are nested as deep as the number of their names allows, and a file that loads
itself makes any budget too small. -/
theorem load_returns_iff_no_file_leads_back_three_files :
    threeFiles.files.loadNames.card + 1 = 3 ∧
    (load ⟨1, 2, 0⟩ (.file "a") : SessionT WorldM _) {} threeFiles = none ∧
    (∃ steps result, ∀ depth lines, 3 ≤ depth →
      (load ⟨steps, depth, lines⟩ (.file "a") : SessionT WorldM _) {} threeFiles = some result) ∧
    (¬ ∃ chain : Nat → String,
      chain 0 = "a" ∧ ∀ i, threeFiles.files.Leads (chain i) (chain (i + 1))) ∧
    ¬ ∃ budget, ((load budget (.file "a") : SessionT WorldM _) {} oneFile).isSome = true := by
  have hcard : threeFiles.files.loadNames.card + 1 = 3 := by decide +kernel
  obtain ⟨hiff, -, hdepth⟩ := load_returns_iff_no_file_leads_back "a" {} threeFiles
    (LoadCall.evaluationsReturn_of_normal _ (by decide +kernel))
  have hreturns : ∃ budget, ((load budget (.file "a") : SessionT WorldM _) {} threeFiles).isSome =
      true := ⟨⟨1, 3, 0⟩, by decide +kernel⟩
  obtain ⟨⟨steps, result, hresult, -⟩, -⟩ := hdepth hreturns
  rw [hcard] at hresult
  obtain ⟨hself, -⟩ := load_returns_iff_no_file_leads_back "a" {} oneFile
    (LoadCall.evaluationsReturn_of_normal _ (by decide +kernel))
  have hleads : oneFile.files.Leads "a" "a" :=
    ⟨"y\n:load a", by decide +kernel, ":load a", by decide +kernel⟩
  exact ⟨hcard, by decide +kernel, ⟨steps, result, hresult⟩, hiff.1 hreturns,
    fun hreturns ↦ hself.1 hreturns ⟨fun _ ↦ "a", rfl, fun _ ↦ hleads⟩⟩

end Session

end UntypedLambda
