import UntypedLambda.CommandLine
import UntypedLambda.Proofs.Loading

/-!
# What the arguments mean

The arguments are cut into items first: an option that needs a number takes the next argument,
whatever it is, and every other argument is an item by itself (`Item.ofArguments`). An item either
decides the matter by itself (`Item.verdict?`) or adds to what is asked for.

* `readFrom_eq`: reading stops at the first item that decides. What was asked for until then is read
  off the items before it: the last limit, whether there is an item against the prompt, and the
  files in order (`Request.extend`). How the items of one kind stand among those of another does not
  matter.
* `loadAll_apply_iff`: the sources are loaded one after another, up to and including the first that
  fails. The ones behind it are not looked at.
-/

namespace UntypedLambda

namespace CommandLine

/-! ### Items -/

/-- An argument by itself, or an option with the argument behind it. -/
inductive Item where
  | help
  | noPrompt
  | limit (option : String) (number : Option String)
  | file (name : String)
deriving DecidableEq, Repr

namespace Item

/-- Cuts the arguments into items. -/
def ofArguments : List String → List Item
  | [] => []
  | argument :: arguments =>
    if argument = "-h" ∨ argument = "--help" then help :: ofArguments arguments
    else if argument = "-n" ∨ argument = "--no-interactive" then noPrompt :: ofArguments arguments
    else if argument = "-m" ∨ argument = "--max-steps" then
      match arguments with
      | [] => [limit argument none]
      | number :: arguments => limit argument (some number) :: ofArguments arguments
    else file argument :: ofArguments arguments

/-- What an item decides by itself. -/
def verdict? : Item → Option Verdict
  | help => some .showUsage
  | noPrompt => none
  | limit option none => some (.missingNumber option)
  | limit _ (some number) =>
    match readLimit number with
    | .error fault => some (.refused fault)
    | .ok _ => none
  | file _ => none

/-- The limit that an item sets. -/
def limit? : Item → Option (Option Nat)
  | limit _ (some number) => (readLimit number).toOption
  | limit _ none | help | noPrompt | file _ => none

/-- The file that an item names. -/
def file? : Item → Option String
  | file name => some name
  | help | noPrompt | limit _ _ => none

end Item

/-- The last limit among items. -/
def lastLimit? (items : List Item) : Option (Option Nat) := (items.filterMap Item.limit?).getLast?

/-- A limit among items was read from an argument. -/
theorem exists_readLimit_of_lastLimit? {items : List Item} {limit : Option Nat}
    (h : lastLimit? items = some limit) : ∃ number, readLimit number = .ok limit := by
  obtain ⟨item, -, hitem⟩ := List.mem_filterMap.1 (List.mem_of_getLast? h)
  rcases item with - | - | ⟨option, - | number⟩ | name
  case limit.some =>
    rw [Item.limit?] at hitem
    rcases hnumber : readLimit number with fault | limit' <;> rw [hnumber] at hitem <;> cases hitem
    exact ⟨number, hnumber⟩
  all_goals cases hitem

/-- The files among items. -/
def filesOf (items : List Item) : List String := items.filterMap Item.file?

/-- A request with what further items ask for. -/
def Request.extend (request : Request) (items : List Item) : Request where
  limit := (lastLimit? items).or request.limit
  interactive := request.interactive && Item.noPrompt ∉ items
  files := request.files ++ filesOf items

theorem Request.extend_nil (request : Request) : request.extend [] = request := by
  simp [extend, lastLimit?, filesOf]

theorem Request.extend_noPrompt (request : Request) (items : List Item) :
    request.extend (.noPrompt :: items) = { request with interactive := false }.extend items := by
  simp [extend, lastLimit?, filesOf, List.filterMap_cons, Item.limit?, Item.file?]

theorem Request.extend_limit (request : Request) {option number : String} {limit : Option Nat}
    (h : readLimit number = .ok limit) (items : List Item) :
    request.extend (.limit option (some number) :: items) =
      { request with limit := some limit }.extend items := by
  have hlast : lastLimit? (.limit option (some number) :: items) =
      some ((lastLimit? items).getD limit) := by
    simp [lastLimit?, Item.limit?, h, Except.toOption, List.getLast?_cons]
  rcases hitems : lastLimit? items with - | limit' <;>
    simp [extend, hlast, hitems, filesOf, List.filterMap_cons, Item.file?]

theorem Request.extend_file (request : Request) (name : String) (items : List Item) :
    request.extend (.file name :: items) =
      { request with files := request.files ++ [name] }.extend items := by
  simp [extend, lastLimit?, filesOf, List.filterMap_cons, Item.limit?, Item.file?]

/-- Reading stops at the first item that decides. By induction on the items; `request` is what was
asked for before. -/
theorem readFrom_eq (request : Request) (arguments : List String) :
    readFrom request arguments =
      (request.extend ((Item.ofArguments arguments).takeWhile (·.verdict?.isNone)),
        ((Item.ofArguments arguments).findSome? Item.verdict?).getD .complete) := by
  fun_induction Item.ofArguments arguments generalizing request with
  | case1 =>
    rw [readFrom, List.takeWhile_nil, Request.extend_nil]
    rfl
  | case2 argument arguments hhelp ih =>
    -- The first item decides, so the induction hypothesis is not needed.
    unfold readFrom
    rw [if_pos hhelp, List.takeWhile_cons_of_neg (by decide), Request.extend_nil]
    rfl
  | case3 argument arguments hhelp hprompt ih =>
    unfold readFrom
    rw [if_neg hhelp, if_pos hprompt, ih, List.takeWhile_cons_of_pos rfl, Request.extend_noPrompt]
    rfl
  | case4 argument hhelp hprompt hlimit =>
    simp [readFrom, hhelp, hprompt, hlimit, Item.verdict?, Request.extend_nil]
  -- The option takes two arguments, so the induction goes on behind the second.
  | case5 argument hhelp hprompt hlimit number arguments ih =>
    rcases hnumber : readLimit number with fault | limit
    · simp [readFrom, hhelp, hprompt, hlimit, hnumber, Item.verdict?, Request.extend_nil]
    · simp [readFrom, hhelp, hprompt, hlimit, hnumber, ih, Item.verdict?, Request.extend_limit]
  | case6 argument arguments hhelp hprompt hlimit ih =>
    unfold readFrom
    rw [if_neg hhelp, if_neg hprompt, if_neg hlimit, ih, List.takeWhile_cons_of_pos rfl,
      Request.extend_file]
    rfl

/-- Reading goes on to the last item if none decides. -/
theorem read_of_forall_verdict?_eq_none {arguments : List String}
    (h : ∀ item ∈ Item.ofArguments arguments, item.verdict? = none) :
    read arguments = (({} : Request).extend (Item.ofArguments arguments), .complete) := by
  rw [read, readFrom_eq, List.findSome?_eq_none_iff.2 h,
    List.takeWhile_eq_self_iff.2 fun item hitem ↦ by rw [h item hitem]; rfl]
  rfl

/-- Reading stops at an item that decides, if none before it does. -/
theorem read_of_verdict?_eq_some {arguments : List String} {before after : List Item} {item : Item}
    {verdict : Verdict} (hitems : Item.ofArguments arguments = before ++ item :: after)
    (hbefore : ∀ item ∈ before, item.verdict? = none) (hitem : item.verdict? = some verdict) :
    read arguments = (({} : Request).extend before, verdict) := by
  have htakeWhile : (before ++ item :: after).takeWhile (·.verdict?.isNone) = before := by
    rw [List.takeWhile_append_of_pos fun item hitem ↦ by rw [hbefore item hitem]; rfl,
      List.takeWhile_cons_of_neg (by simp [hitem]), List.append_nil]
  rw [read, readFrom_eq, hitems, htakeWhile, List.findSome?_append,
    List.findSome?_eq_none_iff.2 hbefore, Option.none_or,
    List.findSome?_cons_of_isSome (by simp [hitem]), hitem]
  rfl

/-! ### Sources in order -/

open Session (failureReport load loadReported loadReported_apply wentWell wentWell_iff)

/-- The sources are loaded one after another, and all their lines go well. -/
def AllLoaded (budget : Budget) (sources : List Source) (session : Session) (w : World)
    (session' : Session) (w' : World) : Prop :=
  ∃ results, (sources.mapM (load budget) : SessionT WorldM _) session w =
      some ((results, session'), w') ∧ ∀ result ∈ results, result = .ok 0

/-- The sources are loaded one after another, up to and including one that fails: it cannot be read,
or some of its lines fail. The ones before it went well. -/
def LoadedToFailure (budget : Budget) (sources : List Source) (session : Session) (w : World)
    (session' : Session) (w' : World) : Prop :=
  ∃ front source rest session₁ w₁ result w₂, sources = front ++ source :: rest ∧
    AllLoaded budget front session w session₁ w₁ ∧
    (load budget source : SessionT WorldM _) session₁ w₁ = some ((result, session'), w₂) ∧
    result ≠ .ok 0 ∧ w' = w₂.complained (failureReport source result)

section Loads

variable {budget : Budget} {source : Source} {sources : List Source} {session session' : Session}
  {w w' : World}

theorem allLoaded_nil :
    AllLoaded budget [] session w session' w' ↔ session = session' ∧ w = w' := by
  simp only [AllLoaded, List.mapM_nil, SessionT.pure_apply_iff]
  exact ⟨fun ⟨_, ⟨_, hsame⟩, _⟩ ↦ hsame, fun hsame ↦ ⟨[], ⟨rfl, hsame⟩, List.forall_mem_nil _⟩⟩

theorem allLoaded_cons :
    AllLoaded budget (source :: sources) session w session' w' ↔
      ∃ session₁ w₁, (load budget source : SessionT WorldM _) session w =
          some ((.ok 0, session₁), w₁) ∧ AllLoaded budget sources session₁ w₁ session' w' := by
  simp only [AllLoaded, List.mapM_cons, SessionT.bind_apply_iff, SessionT.pure_apply_iff]
  constructor
  · rintro ⟨_, ⟨result, session₁, w₁, hload, results, _, _, hloads, rfl, rfl, rfl⟩, hresults⟩
    rw [List.forall_mem_cons] at hresults
    obtain ⟨rfl, hresults⟩ := hresults
    exact ⟨session₁, w₁, hload, results, hloads, hresults⟩
  · rintro ⟨session₁, w₁, hload, results, hloads, hresults⟩
    exact ⟨.ok 0 :: results, ⟨.ok 0, session₁, w₁, hload, results, session', w', hloads, rfl, rfl,
      rfl⟩, List.forall_mem_cons.2 ⟨rfl, hresults⟩⟩

theorem not_loadedToFailure_nil : ¬ LoadedToFailure budget [] session w session' w' := by
  simp [LoadedToFailure]

theorem loadedToFailure_cons :
    LoadedToFailure budget (source :: sources) session w session' w' ↔
      (∃ result w₂, (load budget source : SessionT WorldM _) session w =
          some ((result, session'), w₂) ∧ result ≠ .ok 0 ∧
          w' = w₂.complained (failureReport source result)) ∨
      ∃ session₁ w₁, (load budget source : SessionT WorldM _) session w =
          some ((.ok 0, session₁), w₁) ∧
          LoadedToFailure budget sources session₁ w₁ session' w' := by
  constructor
  · rintro ⟨front, failing, rest, session₁, w₁, result, w₂, hsources, hfront, hload, hfailed⟩
    rcases front with - | ⟨first, front⟩
    · obtain ⟨rfl, rfl⟩ := List.cons.inj hsources
      obtain ⟨rfl, rfl⟩ := allLoaded_nil.1 hfront
      exact .inl ⟨result, w₂, hload, hfailed⟩
    · obtain ⟨rfl, rfl⟩ := List.cons.inj hsources
      obtain ⟨session₀, w₀, hfirst, hfront⟩ := allLoaded_cons.1 hfront
      exact .inr ⟨session₀, w₀, hfirst, front, failing, rest, session₁, w₁, result, w₂, rfl,
        hfront, hload, hfailed⟩
  · rintro (⟨result, w₂, hload, hfailed⟩ |
      ⟨session₀, w₀, hfirst, front, failing, rest, session₁, w₁, result, w₂, rfl, hfront, hload⟩)
    · exact ⟨[], source, sources, session, w, result, w₂, rfl, allLoaded_nil.2 ⟨rfl, rfl⟩, hload,
        hfailed⟩
    · exact ⟨source :: front, failing, rest, session₁, w₁, result, w₂, rfl,
        allLoaded_cons.2 ⟨session₀, w₀, hfirst, hfront⟩, hload⟩

theorem loadAll_cons_apply (budget : Budget) (source : Source) (sources : List Source)
    (session : Session) (w : World) :
    (loadAll budget (source :: sources) : SessionT WorldM _) session w =
      ((load budget source : SessionT WorldM _) session w).bind fun r ↦
        if wentWell r.1.1 then (loadAll budget sources : SessionT WorldM _) r.1.2 r.2
        else some ((false, r.1.2), r.2.complained (failureReport source r.1.1)) := by
  show ((loadReported budget source : SessionT WorldM _) session w).bind _ = _
  rw [loadReported_apply]
  rcases (load budget source : SessionT WorldM _) session w with - | ⟨⟨result, session'⟩, w'⟩
  · rfl
  show (if wentWell result = true then _ else _ : SessionT WorldM _) session'
    (w'.complained (failureReport source result)) = if wentWell result = true then _ else _
  rcases hresult : wentWell result with - | -
  · rfl
  · obtain rfl := wentWell_iff.1 hresult
    show (loadAll budget sources : SessionT WorldM _) session' (w'.complained "") = _
    rw [World.complained_empty]
    rfl

/-- All goes well exactly if every source is loaded and goes well. By induction on the sources. -/
theorem loadAll_apply_true_iff :
    (loadAll budget sources : SessionT WorldM _) session w = some ((true, session'), w') ↔
      AllLoaded budget sources session w session' w' := by
  induction sources generalizing session w with
  | nil => simp [loadAll, SessionT.pure_apply_iff, allLoaded_nil]
  | cons source sources ih =>
    rw [loadAll_cons_apply, allLoaded_cons, Option.bind_eq_some_iff]
    constructor
    · rintro ⟨⟨⟨result, session₁⟩, w₁⟩, hload, hrest⟩
      split at hrest
      · next hresult =>
        obtain rfl := wentWell_iff.1 hresult
        exact ⟨session₁, w₁, hload, ih.1 hrest⟩
      · cases hrest
    · rintro ⟨session₁, w₁, hload, hrest⟩
      exact ⟨_, hload, ih.2 hrest⟩

/-- Something fails exactly if the sources are loaded up to one that fails. By induction on the
sources. -/
theorem loadAll_apply_false_iff :
    (loadAll budget sources : SessionT WorldM _) session w = some ((false, session'), w') ↔
      LoadedToFailure budget sources session w session' w' := by
  induction sources generalizing session w with
  | nil => simp [loadAll, SessionT.pure_apply_iff, not_loadedToFailure_nil]
  | cons source sources ih =>
    rw [loadAll_cons_apply, loadedToFailure_cons, Option.bind_eq_some_iff]
    constructor
    · rintro ⟨⟨⟨result, session₁⟩, w₁⟩, hload, hrest⟩
      split at hrest
      · next hresult =>
        obtain rfl := wentWell_iff.1 hresult
        exact .inr ⟨session₁, w₁, hload, ih.1 hrest⟩
      · next hresult =>
        cases hrest
        exact .inl ⟨result, w₁, hload, mt wentWell_iff.2 hresult, rfl⟩
    · rintro (⟨result, w₂, hload, hresult, rfl⟩ | ⟨session₁, w₁, hload, hrest⟩)
      · exact ⟨_, hload, if_neg (mt wentWell_iff.1 hresult)⟩
      · exact ⟨_, hload, ih.2 hrest⟩

end Loads

/-! ### Runs -/

/-- What items load, in order: the standard input if there is neither a file nor a prompt. -/
def sourcesOf (items : List Item) : List Source :=
  if Item.noPrompt ∈ items ∧ filesOf items = [] then [.input] else (filesOf items).map .file

theorem sources_extend (items : List Item) :
    (({} : Request).extend items).sources = sourcesOf items := by
  by_cases hprompt : Item.noPrompt ∈ items <;> by_cases hfiles : filesOf items = [] <;>
    simp [Request.sources, Request.extend, sourcesOf, hprompt, hfiles]

/-- A session with a limit, if there is one to set. -/
def limited (session : Session) : Option (Option Nat) → Session
  | none => session
  | some limit => { session with settings := { session.settings with limit } }

section Programs

variable {m : Type → Type} [Monad m] [Console m]

/-- Sets a limit, if there is one to set, and goes on. -/
def withLimit {α : Type} (limit? : Option (Option Nat)) (next : SessionT m α) : SessionT m α :=
  match limit? with
  | none => next
  | some limit => do
    Session.modifySettings fun settings ↦ { settings with limit }
    next

/-- What is done about a verdict. -/
def conclude (budget : Budget) (request : Request) : Verdict → SessionT m Next
  | .showUsage => do
    Console.print usage
    return .exit 0
  | .missingNumber option => do
    Console.complainLine ("option '" ++ option ++ "' expects a number")
    return .exit 2
  | .refused fault => do
    Console.complainLine fault.message
    return .exit 2
  | .complete => do
    if ← loadAll budget request.sources then
      return if request.interactive then .prompt else .exit 0
    else return .exit 1

theorem run_eq {budget : Budget} {arguments : List String} {request : Request} {verdict : Verdict}
    (h : read arguments = (request, verdict)) :
    (run budget arguments : SessionT m Next) =
      withLimit request.limit (conclude budget request verdict) := by
  rw [run, h]
  rcases request with ⟨- | limit, interactive, files⟩ <;> rcases verdict <;> rfl

end Programs

theorem withLimit_apply {α : Type} (limit? : Option (Option Nat)) (next : SessionT WorldM α)
    (session : Session) (w : World) :
    withLimit limit? next session w = next (limited session limit?) w := by
  rcases limit? with - | limit <;> rfl

/-- What a request that was read to its end comes to on a world. -/
theorem conclude_complete_apply_iff {budget : Budget} {request : Request}
    {session session' : Session} {w w' : World} {next : Next} :
    (conclude budget request .complete : SessionT WorldM Next) session w =
        some ((next, session'), w') ↔
      (AllLoaded budget request.sources session w session' w' ∧
        next = if request.interactive then .prompt else .exit 0) ∨
      (LoadedToFailure budget request.sources session w session' w' ∧ next = .exit 1) := by
  rw [conclude, SessionT.bind_apply_iff, ← loadAll_apply_true_iff, ← loadAll_apply_false_iff]
  constructor
  · rintro ⟨- | -, session₁, w₁, hloads, hnext⟩
    · obtain ⟨rfl, rfl, rfl⟩ := SessionT.pure_apply_iff.1 hnext
      exact .inr ⟨hloads, rfl⟩
    · obtain ⟨rfl, rfl, rfl⟩ := SessionT.pure_apply_iff.1 hnext
      exact .inl ⟨hloads, rfl⟩
  · rintro (⟨hloads, rfl⟩ | ⟨hloads, rfl⟩)
    · exact ⟨true, session', w', hloads, rfl⟩
    · exact ⟨false, session', w', hloads, rfl⟩

end CommandLine

end UntypedLambda
