import UntypedLambda.Proofs.ExpressionLines

/-!
# How a command is written

A command is written as blanks, a colon, a name without a blank in it, and blanks around the
argument, if there is one (`Spells`). The reader does not say so: it drops blanks, takes characters
up to a blank and trims what is left.

* `spells_iff`: a line is written in one way at most, and the reader finds the two parts of it. An
  argument that it finds is never empty, since a blank one is none, and it begins and ends with
  something else than a blank (`Text.IsTrimmed`).
* `ofLine?_of_spells`: what becomes of the two parts. The name is looked up, and the verb that it
  names decides whether there has to be an argument or must not be one.
* Whoever gets a verb and an argument that may be missing has nothing to do in some cases
  (`performVerb?`). It does not come to these: the verbs that need an argument, by the table of the
  verbs, are those that cannot be carried out without one (`performVerb?_parts`).
-/

namespace UntypedLambda

open Token (IsBlankRun takeWhile_append_of_run)

/-! ### Trimmed texts -/

namespace Text

/-- There is something in the text, and it begins and ends with something else than a blank. -/
structure IsTrimmed (cs : List Char) : Prop where
  ne_nil : cs ≠ []
  head : ∀ c ∈ cs.head?, isBlank c = false
  last : ∀ c ∈ cs.getLast?, isBlank c = false

theorem head?_trimStart (cs : List Char) : ∀ c ∈ (trimStart cs).head?, isBlank c = false := by
  intro c hc
  have hnot := List.head?_dropWhile_not isBlank cs
  rwa [← trimStart, Option.mem_def.1 hc] at hnot

theorem trimStart_append {gap cs : List Char} (hgap : IsBlankRun gap)
    (hcs : ∀ c ∈ cs.head?, isBlank c = false) : trimStart (gap ++ cs) = cs :=
  (takeWhile_append_of_run hgap hcs).2

theorem exists_append_trimStart (cs : List Char) :
    ∃ gap, IsBlankRun gap ∧ gap ++ trimStart cs = cs :=
  ⟨cs.takeWhile isBlank, fun _ hc ↦ List.mem_takeWhile_imp hc, List.takeWhile_append_dropWhile⟩

/-- What is trimmed off is blank. -/
theorem exists_append_trim (cs : List Char) :
    ∃ gap rear, IsBlankRun gap ∧ IsBlankRun rear ∧ gap ++ (trim cs ++ rear) = cs := by
  obtain ⟨gap, hgap, hcs⟩ := exists_append_trimStart cs
  obtain ⟨rear, hrear, hrest⟩ := Token.exists_trimEnd_append (trimStart cs)
  exact ⟨gap, rear, hgap, hrear, by rw [trim, hrest, hcs]⟩

theorem trim_eq_nil_iff {cs : List Char} : trim cs = [] ↔ IsBlankRun cs := by
  constructor
  · intro h
    obtain ⟨gap, rear, hgap, hrear, hcs⟩ := exists_append_trim cs
    rw [h, List.nil_append] at hcs
    rw [← hcs]
    exact List.forall_mem_append.2 ⟨hgap, hrear⟩
  · intro h
    rw [trim, trimStart, List.dropWhile_eq_nil_iff.2 h]
    rfl

/-- What is left by trimming is trimmed, unless nothing is. -/
theorem isTrimmed_trim {cs : List Char} (h : trim cs ≠ []) : IsTrimmed (trim cs) where
  ne_nil := h
  head c hc := by
    refine head?_trimStart cs c ?_
    obtain ⟨rear, hrear⟩ : trim cs <+: trimStart cs := trimEnd_isPrefix (trimStart cs)
    rw [← hrear, Option.mem_def, List.head?_append_of_ne_nil _ h]
    exact hc
  last c hc := by
    have hlast := List.rdropWhile_last_not isBlank (trimStart cs) h
    rw [Option.mem_def, List.getLast?_eq_some_getLast h, Option.some.injEq] at hc
    rw [← hc]
    exact Bool.eq_false_iff.2 hlast

/-- A trimmed text is what trimming leaves of it with blanks around. -/
theorem trim_append {gap text rear : List Char} (hgap : IsBlankRun gap) (htext : IsTrimmed text)
    (hrear : IsBlankRun rear) : trim (gap ++ (text ++ rear)) = text := by
  have hhead : ∀ c ∈ (text ++ rear).head?, isBlank c = false := by
    rw [List.head?_append_of_ne_nil _ htext.ne_nil]
    exact htext.head
  have hself : trimEnd text = text := by
    refine List.rdropWhile_eq_self_iff.2 fun hne ↦ ?_
    simp [htext.last _ (List.getLast?_eq_some_getLast hne)]
  have hblank : trimEnd rear = [] := List.rdropWhile_eq_nil_iff.2 hrear
  rw [trim, trimStart_append hgap hhead, trimEnd_append, if_pos hblank, hself]

end Text

/-! ### Verbs -/

namespace Verb

/-- No two verbs share a name, so the order in which they are looked up does not matter. -/
theorem named?_eq_some_iff {name : String} {verb : Verb} :
    named? name = some verb ↔ name = verb.shortName ∨ name = verb.longName := by
  constructor
  · intro h
    simpa using List.find?_some h
  · rintro (rfl | rfl) <;> cases verb <;> rfl

theorem named?_eq_none_iff {name : String} :
    named? name = none ↔ ∀ verb : Verb, name ≠ verb.shortName ∧ name ≠ verb.longName := by
  rw [Option.eq_none_iff_forall_ne_some]
  exact forall_congr' fun verb ↦ by rw [ne_eq, named?_eq_some_iff, not_or]

/-- A verb with an argument makes up a command if it needs one, and one without if it needs none. -/
theorem exists_parts_eq : ∀ {verb : Verb} {argument : Option String},
    verb.needsArgument = argument.isSome → ∃ command : Command, command.parts = (verb, argument)
  | help, none, _ => ⟨.help, rfl⟩
  | load, some file, _ => ⟨.load file, rfl⟩
  | steps, none, _ => ⟨.toggleSteps, rfl⟩
  | limit, some text, _ => ⟨.setLimit text, rfl⟩
  | pause, none, _ => ⟨.togglePause, rfl⟩

theorem withArgument_none : ∀ {verb : Verb}, verb.needsArgument = true →
    verb.withArgument none = .error (.missingArgument verb)
  | load, _ => rfl
  | limit, _ => rfl

theorem withArgument_some : ∀ {verb : Verb}, verb.needsArgument = false → ∀ text : String,
    verb.withArgument (some text) = .error (.unexpectedArgument verb)
  | help, _, _ => rfl
  | steps, _, _ => rfl
  | pause, _, _ => rfl

theorem withArgument_ne_unknown (verb : Verb) (argument : Option String) (name : String) :
    verb.withArgument argument ≠ .error (.unknown name) := by
  cases verb <;> cases argument <;> nofun

end Verb

/-! ### Lines that are commands -/

namespace Command

open Text (isBlank trimStart trim IsTrimmed trim_eq_nil_iff)

/-- What stands behind the name of a command: blanks, with the argument between them if there is
one. -/
inductive Trails : List Char → Option String → Prop
  | nothing {gap : List Char} : IsBlankRun gap → Trails gap none
  | argument {gap rear : List Char} {text : String} : IsBlankRun gap → gap ≠ [] →
      IsTrimmed text.toList → IsBlankRun rear → Trails (gap ++ (text.toList ++ rear)) (some text)

/-- A line is written as a command with this name and this argument: blanks, a colon, the name, and
what stands behind it. -/
def Spells (line name : String) (argument : Option String) : Prop :=
  ∃ indent rest, IsBlankRun indent ∧ (∀ c ∈ name.toList, isBlank c = false) ∧
    Trails rest argument ∧ line.toList = indent ++ ':' :: (name.toList ++ rest)

/-- The name ends at the first blank, and the argument is what is left by trimming. -/
theorem trails_iff {rest : List Char} {argument : Option String} :
    Trails rest argument ↔
      (∀ c ∈ rest.head?, isBlank c = true) ∧
        argument = if (trim rest).isEmpty then none else some (String.ofList (trim rest)) := by
  constructor
  · rintro (hgap | ⟨hgap, hne, htext, hrear⟩)
    · refine ⟨fun c hc ↦ hgap c (List.mem_of_head? hc), ?_⟩
      rw [trim_eq_nil_iff.2 hgap]
      rfl
    · refine ⟨fun c hc ↦ hgap c (List.mem_of_head? ?_), ?_⟩
      · rwa [Option.mem_def, List.head?_append_of_ne_nil _ hne] at hc
      · rw [Text.trim_append hgap htext hrear, String.ofList_toList,
          if_neg (by simpa using htext.ne_nil)]
  · rintro ⟨hhead, rfl⟩
    by_cases hnil : trim rest = []
    · rw [hnil]
      exact .nothing (trim_eq_nil_iff.1 hnil)
    · rw [if_neg (by simpa using hnil)]
      obtain ⟨gap, rear, hgap, hrear, hrest⟩ := Text.exists_append_trim rest
      have htrimmed := Text.isTrimmed_trim hnil
      have hne : gap ≠ [] := by
        -- otherwise the argument would begin with the first blank
        rintro rfl
        obtain ⟨c, cs, hcs⟩ := List.exists_cons_of_ne_nil hnil
        rw [List.nil_append, hcs] at hrest
        rw [hcs] at htrimmed
        have hblank := hhead c (by rw [← hrest]; rfl)
        rw [htrimmed.head c rfl] at hblank
        cases hblank
      have htext : trim rest = (String.ofList (trim rest)).toList := String.toList_ofList.symm
      rw [htext] at htrimmed hrest
      nth_rewrite 1 [← hrest]
      exact .argument hgap hne htrimmed hrear

/-- The reader finds the parts of a line that is written as a command, and finds none in any other
line. -/
theorem spells_iff {line name : String} {argument : Option String} :
    Spells line name argument ↔
      ∃ rest, trimStart line.toList = ':' :: rest ∧ splitLine rest = (name, argument) := by
  constructor
  · rintro ⟨indent, rest, hindent, hname, hrest, hline⟩
    obtain ⟨hhead, hargument⟩ := trails_iff.1 hrest
    have hword : ∀ c ∈ name.toList, (!isBlank c) = true := fun c hc ↦ by simp [hname c hc]
    have hstop : ∀ c ∈ rest.head?, (!isBlank c) = false := fun c hc ↦ by simp [hhead c hc]
    obtain ⟨htake, hdrop⟩ := takeWhile_append_of_run (p := (!isBlank ·)) hword hstop
    refine ⟨name.toList ++ rest, ?_, ?_⟩
    · rw [hline, Text.trimStart_append hindent]
      rintro c ⟨⟩
      rfl
    · rw [splitLine, htake, hdrop, String.ofList_toList, hargument]
  · rintro ⟨rest, hline, hsplit⟩
    obtain ⟨rfl, rfl⟩ := Prod.mk.inj hsplit
    obtain ⟨indent, hindent, hindented⟩ := Text.exists_append_trimStart line.toList
    refine ⟨indent, rest.dropWhile (!isBlank ·), hindent, ?_, trails_iff.2 ⟨?_, rfl⟩, ?_⟩
    · rw [String.toList_ofList]
      intro c hc
      simpa using List.mem_takeWhile_imp hc
    · intro c hc
      have hnot := List.head?_dropWhile_not (!isBlank ·) rest
      rw [Option.mem_def.1 hc] at hnot
      simpa using hnot
    · rw [String.toList_ofList, List.takeWhile_append_dropWhile, ← hline, hindented]

/-- The first character of a line, blanks apart. -/
theorem exists_trimStart_eq_cons_iff {line : String} {c : Char} :
    (∃ rest, trimStart line.toList = c :: rest) ↔ line.toList.find? (!isBlank ·) = some c := by
  rw [List.find?_not_eq_head?_dropWhile, List.head?_eq_some_iff]
  rfl

/-- A line whose first character is a colon, blanks apart, is written as a command in exactly one
way. -/
theorem existsUnique_spells {line : String} (h : line.toList.find? (!isBlank ·) = some ':') :
    ∃! parts : String × Option String, Spells line parts.1 parts.2 := by
  obtain ⟨rest, hrest⟩ := exists_trimStart_eq_cons_iff.2 h
  refine ⟨splitLine rest, spells_iff.2 ⟨rest, hrest, rfl⟩, fun parts hparts ↦ ?_⟩
  obtain ⟨rest', hrest', hsplit⟩ := spells_iff.1 hparts
  obtain rfl : rest = rest' := List.tail_eq_of_cons_eq (hrest.symm.trans hrest')
  exact hsplit.symm

theorem ofLine?_eq_none_iff {line : String} :
    ofLine? line = none ↔ line.toList.find? (!isBlank ·) ≠ some ':' := by
  rw [ne_eq, ← exists_trimStart_eq_cons_iff, not_exists, ofLine?]
  split
  · next rest hrest =>
    refine iff_of_false (fun hnone ↦ ?_) fun hnot ↦ hnot rest hrest
    dsimp only at hnone
    split at hnone <;> cases hnone
  · next hnot => exact iff_of_true rfl hnot

/-- What a name and an argument are read as: the verb of that name is given the argument. -/
def ofParts (name : String) (argument : Option String) : Except CommandError Command :=
  match Verb.named? name with
  | none => .error (.unknown name)
  | some verb => verb.withArgument argument

theorem ofLine?_of_spells {line name : String} {argument : Option String}
    (h : Spells line name argument) : ofLine? line = some (ofParts name argument) := by
  obtain ⟨rest, hrest, hsplit⟩ := spells_iff.1 h
  simp only [ofLine?, hrest, hsplit, ofParts]
  rcases Verb.named? name with - | verb <;> rfl

/-- What is read is written as a command. -/
theorem exists_spells_of_ofLine? {line : String} {outcome : Except CommandError Command}
    (h : ofLine? line = some outcome) :
    ∃ name argument, Spells line name argument ∧ ofParts name argument = outcome := by
  have hcolon : line.toList.find? (!isBlank ·) = some ':' := by
    by_contra hnot
    rw [ofLine?_eq_none_iff.2 hnot] at h
    cases h
  obtain ⟨⟨name, argument⟩, hspells, -⟩ := existsUnique_spells hcolon
  exact ⟨name, argument, hspells, Option.some.inj ((ofLine?_of_spells hspells).symm.trans h)⟩

theorem ofParts_of_named {name : String} {verb : Verb}
    (h : name = verb.shortName ∨ name = verb.longName) (argument : Option String) :
    ofParts name argument = verb.withArgument argument := by
  rw [ofParts, Verb.named?_eq_some_iff.2 h]

/-- A name is unknown if no verb has it. What the argument is does not matter then. -/
theorem ofParts_eq_unknown_iff {name : String} {argument : Option String} :
    ofParts name argument = .error (.unknown name) ↔
      ∀ verb : Verb, name ≠ verb.shortName ∧ name ≠ verb.longName := by
  rw [← Verb.named?_eq_none_iff, ofParts]
  rcases Verb.named? name with - | verb
  · exact iff_of_true rfl rfl
  · exact iff_of_false (verb.withArgument_ne_unknown argument name) nofun

/-- The argument of a command that was read is the one that stands on the line. -/
theorem snd_parts_of_ofParts {name : String} {argument : Option String} {command : Command}
    (h : ofParts name argument = .ok command) : command.parts.2 = argument := by
  rw [ofParts] at h
  split at h
  · cases h
  · rw [withArgument_eq_ok_iff.1 h]

/-- The argument of a command that was read is trimmed. -/
theorem isTrimmed_of_ofLine? {line text : String} {command : Command}
    (h : ofLine? line = some (.ok command)) (htext : command.parts.2 = some text) :
    IsTrimmed text.toList := by
  obtain ⟨name, argument, ⟨indent, rest, -, -, htrails, -⟩, hparts⟩ := exists_spells_of_ofLine? h
  rw [snd_parts_of_ofParts hparts] at htext
  subst htext
  rcases htrails with - | ⟨-, -, htrimmed, -⟩
  exact htrimmed

end Command

/-! ### Carrying out a verb -/

namespace Session

variable {m : Type → Type} [Monad m] [Console m]

/-- Carries out a verb with the argument that it is given, if it is given one. There is no result
where the argument is missing; one too many is left aside. -/
def performVerb? (loadFile : String → SessionT m Bool) :
    Verb → Option String → Option (SessionT m Bool)
  | .help, _ => some (perform loadFile .help)
  | .load, some file => some (perform loadFile (.load file))
  | .load, none => none
  | .steps, _ => some (perform loadFile .toggleSteps)
  | .limit, some text => some (perform loadFile (.setLimit text))
  | .limit, none => none
  | .pause, _ => some (perform loadFile .togglePause)

/-- The parts of a command are never short of an argument. -/
theorem performVerb?_parts (loadFile : String → SessionT m Bool) (command : Command) :
    performVerb? loadFile command.parts.1 command.parts.2 = some (perform loadFile command) := by
  cases command <;> rfl

end Session

namespace Command

open Text (isBlank IsTrimmed)

/-- **A line is read as a command by its grammar, and no command is short of its argument.**

* A line is no command if and only if its first character, blanks apart, is not a colon, or there is
  none. Any other line is written as a command in exactly one way: a name without blanks behind the
  colon, as long as can be, and the trimmed rest as the argument, unless that is empty.
* The name is unknown if and only if it is neither the short nor the long name of a verb. If it
  names a verb, the argument is missing, unexpected, or part of the command, according to whether
  the verb needs one.
* Whoever executes a line that was read as a command, given how to load a file, and looks at the
  verb and at the argument apart, never finds the argument missing. The argument of a command that
  loads a file or sets the limit is not empty and has no blank at either end. -/
theorem lines_read_by_grammar (line : String) :
    (ofLine? line = none ↔ line.toList.find? (!isBlank ·) ≠ some ':') ∧
    (line.toList.find? (!isBlank ·) = some ':' →
      ∃! parts : String × Option String, Spells line parts.1 parts.2) ∧
    (∀ name argument, Spells line name argument →
      (ofLine? line = some (.error (.unknown name)) ↔
        ∀ verb : Verb, name ≠ verb.shortName ∧ name ≠ verb.longName) ∧
      ∀ verb : Verb, name = verb.shortName ∨ name = verb.longName →
        (verb.needsArgument = true → argument = none →
          ofLine? line = some (.error (.missingArgument verb))) ∧
        (verb.needsArgument = false → argument ≠ none →
          ofLine? line = some (.error (.unexpectedArgument verb))) ∧
        (verb.needsArgument = argument.isSome →
          ∃ command, command.parts = (verb, argument) ∧ ofLine? line = some (.ok command))) ∧
    ∀ command, ofLine? line = some (.ok command) →
      (∀ (m : Type → Type) [Monad m] [Console m] (budget : Budget)
          (loadFile : String → SessionT m Bool),
        Session.performVerb? loadFile command.parts.1 command.parts.2 =
          some (Session.executeWith budget loadFile line)) ∧
      ∀ text, command = .load text ∨ command = .setLimit text → IsTrimmed text.toList := by
  refine ⟨ofLine?_eq_none_iff, existsUnique_spells, fun name argument hspells ↦ ?_,
    fun command hcommand ↦ ⟨fun m _ _ budget loadFile ↦ ?_, fun text htext ↦ ?_⟩⟩
  · rw [ofLine?_of_spells hspells, Option.some.injEq]
    refine ⟨ofParts_eq_unknown_iff, fun verb hverb ↦ ?_⟩
    rw [ofParts_of_named hverb]
    refine ⟨?_, ?_, fun hneeds ↦ ?_⟩
    · rintro hneeds rfl
      rw [Verb.withArgument_none hneeds]
    · intro hneeds hsome
      obtain ⟨text, rfl⟩ := Option.ne_none_iff_exists'.1 hsome
      rw [Verb.withArgument_some hneeds]
    · obtain ⟨command, hparts⟩ := Verb.exists_parts_eq hneeds
      exact ⟨command, hparts, by rw [withArgument_eq_ok_iff.2 hparts]⟩
  · rw [Session.performVerb?_parts, Session.executeWith, hcommand]
  · refine isTrimmed_of_ofLine? hcommand ?_
    rcases htext with rfl | rfl <;> rfl

/-- The blanks around an argument with a blank in it are of several kinds. A verb whose argument is
all blanks has none, and behind a colon in front of a blank stands the empty name. -/
theorem lines_read_by_grammar_wide_blanks :
    Spells "\u3000:load\t my file\u2003" "load" (some "my file") ∧
    ofLine? "\u3000:load\t my file\u2003" = some (.ok (.load "my file")) ∧
    IsTrimmed "my file".toList ∧
    ofLine? " :l \u0085" = some (.error (.missingArgument .load)) ∧
    ofLine? ": load f" = some (.error (.unknown "")) := by
  have hload : Spells "\u3000:load\t my file\u2003" "load" (some "my file") :=
    spells_iff.2 ⟨_, rfl, by decide⟩
  have hmissing : Spells " :l \u0085" "l" none := spells_iff.2 ⟨_, rfl, by decide⟩
  have hempty : Spells ": load f" "" (some "load f") := spells_iff.2 ⟨_, rfl, by decide⟩
  obtain ⟨-, -, hparts, hcommand⟩ := lines_read_by_grammar "\u3000:load\t my file\u2003"
  obtain ⟨command, heq, hread⟩ := ((hparts _ _ hload).2 .load (.inr rfl)).2.2 rfl
  obtain rfl : command = .load "my file" := by
    cases command <;> cases heq
    rfl
  refine ⟨hload, hread, (hcommand _ hread).2 _ (.inl rfl), ?_, ?_⟩
  · obtain ⟨-, -, hparts, -⟩ := lines_read_by_grammar " :l \u0085"
    exact ((hparts _ _ hmissing).2 .load (.inl rfl)).1 rfl rfl
  · obtain ⟨-, -, hparts, -⟩ := lines_read_by_grammar ": load f"
    exact (hparts _ _ hempty).1.2 fun verb ↦ by cases verb <;> decide

end Command

end UntypedLambda
