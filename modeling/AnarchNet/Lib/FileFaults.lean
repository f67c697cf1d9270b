import AnarchNet.Lib.FileKeeping

/-!
# Calls that may fail

A `FaultyWorld` tells of each of the next calls that open or create something whether it fails. A
call that fails changes nothing: it throws when it was to create a node, and yields a stream that is
not good when it was to open a file. The programs that are made of such calls do what the reliable
ones do as long as no call fails, and the failed ones leave at most new directories behind.
-/

namespace FileSystem

open EStateM

/-- A file system, and for the next calls that open or create something whether they fail. Once the
list is used up, no call fails. -/
structure FaultyWorld where
  world : World
  faults : List Bool

section Programs

variable {ε α β : Type}

/-- What a program did, with these faults still to come. -/
def withFaults (faults : List Bool) :
    EStateM.Result ε World α → EStateM.Result ε FaultyWorld α
  | .ok value world => .ok value ⟨world, faults⟩
  | .error fault world => .error fault ⟨world, faults⟩

/-- A program none of whose calls fails. -/
def reliable (program : EStateM ε World α) : EStateM ε FaultyWorld α := fun state =>
  withFaults state.faults (program.run state.world)

/-- A call that may fail, and what happens when it does. -/
def unreliable (call failed : EStateM ε World α) : EStateM ε FaultyWorld α := fun state =>
  match state.faults with
  | [] => (reliable call).run state
  | fails :: rest => (reliable (if fails then failed else call)).run ⟨state.world, rest⟩

@[simp] theorem run_reliable (program : EStateM ε World α) (state : FaultyWorld) :
    (reliable program).run state = withFaults state.faults (program.run state.world) := rfl

@[simp] theorem withFaults_ok (faults : List Bool) (value : α) (world : World) :
    withFaults faults (.ok value world : EStateM.Result ε World α) = .ok value ⟨world, faults⟩ :=
  rfl

@[simp] theorem withFaults_error (faults : List Bool) (fault : ε) (world : World) :
    withFaults faults (.error fault world : EStateM.Result ε World α) =
      .error fault ⟨world, faults⟩ := rfl

/-- The file system after a run does not depend on the faults to come. -/
@[simp] theorem state_withFaults (faults : List Bool) (result : EStateM.Result ε World α) :
    (withFaults faults result).state = ⟨result.state, faults⟩ := by
  cases result <;> rfl

/-- Whether a run returned true does not depend on the faults to come. -/
@[simp] theorem isTrue_withFaults (faults : List Bool) (result : EStateM.Result ε World Bool) :
    (withFaults faults result).isTrue = result.isTrue := by
  cases result <;> rfl

/-- A call that may fail does what it is to do, or it fails. -/
theorem run_unreliable_cases (call failed : EStateM ε World α) (state : FaultyWorld) :
    ∃ faults, (unreliable call failed).run state = withFaults faults (call.run state.world) ∨
      (unreliable call failed).run state = withFaults faults (failed.run state.world) := by
  obtain ⟨world, faults⟩ := state
  cases faults with
  | nil => exact ⟨[], Or.inl rfl⟩
  | cons fails rest =>
      refine ⟨rest, ?_⟩
      cases fails with
      | false => exact Or.inl rfl
      | true => exact Or.inr rfl

/-- Without faults, the program with calls that may fail does what the reliable one does. -/
def Agrees (faulty : EStateM ε FaultyWorld α) (program : EStateM ε World α) : Prop :=
  ∀ world, faulty.run ⟨world, []⟩ = withFaults [] (program.run world)

namespace Agrees

/-- A reliable program. -/
theorem reliable (program : EStateM ε World α) : Agrees (FileSystem.reliable program) program :=
  fun _ => rfl

/-- One call. -/
theorem unreliable (call failed : EStateM ε World α) :
    Agrees (FileSystem.unreliable call failed) call := fun _ => rfl

/-- Returning. -/
theorem pure (value : α) : Agrees (Pure.pure value : EStateM ε FaultyWorld α)
    (Pure.pure value) := fun _ => rfl

/-- Throwing. -/
theorem throw (fault : ε) : Agrees (MonadExcept.throw fault : EStateM ε FaultyWorld α)
    (MonadExcept.throw fault) := fun _ => rfl

/-- A sequence. -/
theorem bind {faulty : EStateM ε FaultyWorld α} {program : EStateM ε World α}
    {next : α → EStateM ε FaultyWorld β} {other : α → EStateM ε World β}
    (hfirst : Agrees faulty program) (hnext : ∀ value, Agrees (next value) (other value)) :
    Agrees (faulty >>= next) (program >>= other) := by
  intro world
  rw [run_bind, run_bind, hfirst world]
  cases program.run world with
  | ok value middle => exact hnext value middle
  | error fault middle => rfl

/-- A choice. -/
theorem ite {c : Prop} [Decidable c] {yes no : EStateM ε FaultyWorld α}
    {yes' no' : EStateM ε World α} (hyes : Agrees yes yes') (hno : Agrees no no') :
    Agrees (if c then yes else no) (if c then yes' else no') := by
  split
  · exact hyes
  · exact hno

/-- A handler. -/
theorem tryCatch {body : EStateM ε FaultyWorld α} {body' : EStateM ε World α}
    {handler : ε → EStateM ε FaultyWorld α} {handler' : ε → EStateM ε World α}
    (hbody : Agrees body body') (hhandler : ∀ fault, Agrees (handler fault) (handler' fault)) :
    Agrees (MonadExcept.tryCatch body handler) (MonadExcept.tryCatch body' handler') := by
  intro world
  rw [show (MonadExcept.tryCatch body handler).run ⟨world, []⟩ = _ from run_tryCatch_eq _ _ _,
    show (MonadExcept.tryCatch body' handler').run world = _ from run_tryCatch_eq _ _ _, hbody world]
  cases body'.run world with
  | ok value middle => rfl
  | error fault middle => exact hhandler fault middle

end Agrees

end Programs

section Calls

variable {ε : Type}

/-- Opening an output file stream may fail. -/
def openOutFaulty (path : FilePath) : EStateM ε FaultyWorld (Option FilePath) :=
  unreliable (openOut path) (return none)

/-- The stream is not good and nothing changed, or the file was opened. -/
theorem run_openOutFaulty_cases (path : FilePath) (state : FaultyWorld) :
    (∃ after, (openOutFaulty path : EStateM ε FaultyWorld (Option FilePath)).run state =
        .ok none after ∧ after.world.tree = state.world.tree) ∨
      ∃ file after, (openOutFaulty path : EStateM ε FaultyWorld (Option FilePath)).run state =
          .ok (some file) after ∧ state.world.tree.opened path = some (after.world.tree, file) := by
  obtain ⟨faults, hcall | hcall⟩ := run_unreliable_cases
    (openOut path : EStateM ε World (Option FilePath)) (return none) state
  · rw [openOutFaulty, hcall, run_openOut_eq]
    cases hopened : state.world.tree.opened path with
    | none => exact Or.inl ⟨_, rfl, rfl⟩
    | some opened => exact Or.inr ⟨opened.2, _, rfl, rfl⟩
  · exact Or.inl ⟨⟨state.world, faults⟩, hcall, rfl⟩

/-- Opening a file that is there for reading may fail. The result tells whether the stream is
good. -/
def opensFaulty : EStateM ε FaultyWorld Bool := unreliable (return true) (return false)

/-- Opening a file for reading changes nothing. -/
theorem run_opensFaulty (state : FaultyWorld) :
    ∃ good faults, (opensFaulty : EStateM ε FaultyWorld Bool).run state =
      .ok good ⟨state.world, faults⟩ := by
  obtain ⟨faults, hcall | hcall⟩ := run_unreliable_cases
    (return true : EStateM ε World Bool) (return false) state
  · exact ⟨true, faults, hcall⟩
  · exact ⟨false, faults, hcall⟩

variable [FileFault ε]

/-- Creating a node may fail. -/
def createNodeFaulty (path : FilePath) (node : Node) : EStateM ε FaultyWorld Unit :=
  unreliable (createNode path node) (throw FileFault.filesystemError)

/-- Creating a symbolic link may fail. -/
def createSymlinkFaulty (target path : FilePath) : EStateM ε FaultyWorld Unit :=
  createNodeFaulty path (.link target)

/-- `create_directories` as in `createMissing`, where each directory may fail. -/
def createMissingFaulty (done : FilePath) : FilePath → Bool → EStateM ε FaultyWorld Bool
  | [], made => return made
  | name :: rest, _ => do
      if ← reliable (isDirectory (done ++ [name])) then
        createMissingFaulty (done ++ [name]) rest false
      else if ← reliable (present (done ++ [name])) then
        throw FileFault.filesystemError
      else do
        createNodeFaulty (done ++ [name]) .dir
        createMissingFaulty (done ++ [name]) rest true

/-- `exists`, and `create_directories` if it is not. -/
def ensureDirectoryFaulty (path : FilePath) : EStateM ε FaultyWorld Bool := do
  if ← reliable (present path) then return true
  else createMissingFaulty [] (path.filter (· ≠ [])) false

/-- Without faults. -/
theorem agrees_createMissing (done rest : FilePath) (made : Bool) :
    Agrees (createMissingFaulty done rest made : EStateM ε FaultyWorld Bool)
      (createMissing done rest made) := by
  induction rest generalizing done made with
  | nil => exact Agrees.pure made
  | cons name rest ih =>
      refine Agrees.bind (Agrees.reliable _) fun dir => Agrees.ite (ih _ _) ?_
      refine Agrees.bind (Agrees.reliable _) fun there => Agrees.ite (Agrees.throw _) ?_
      exact Agrees.bind (Agrees.unreliable _ _) fun _ => ih _ _

/-- Without faults. -/
theorem agrees_ensureDirectory (path : FilePath) :
    Agrees (ensureDirectoryFaulty path : EStateM ε FaultyWorld Bool) (ensureDirectory path) :=
  Agrees.bind (Agrees.reliable _) fun _ => Agrees.ite (Agrees.pure _)
    (agrees_createMissing _ _ _)

/-- Creating a node fails and changes nothing, or does what the reliable call does. -/
theorem run_createNodeFaulty_cases (path : FilePath) (node : Node) (state : FaultyWorld) :
    (∃ after, (createNodeFaulty path node : EStateM ε FaultyWorld Unit).run state =
        .error FileFault.filesystemError after ∧ after.world.tree = state.world.tree) ∨
      ∃ after, (createNodeFaulty path node : EStateM ε FaultyWorld Unit).run state = .ok () after ∧
        (createNode path node : EStateM ε World Unit).run state.world = .ok () after.world := by
  obtain ⟨faults, hcall | hcall⟩ := run_unreliable_cases
    (createNode path node : EStateM ε World Unit) (throw FileFault.filesystemError) state
  · have hcases : ((createNode path node : EStateM ε World Unit).run state.world =
        .error FileFault.filesystemError { state.world with log := state.world.log ++ [path] }) ∨
        ∃ after, (createNode path node : EStateM ε World Unit).run state.world = .ok () after := by
      simp only [createNode, run_bind, run_record, run_get]
      split
      · exact Or.inl rfl
      · split
        · exact Or.inl rfl
        · exact Or.inr ⟨_, rfl⟩
    rcases hcases with hrun | ⟨after, hrun⟩
    · refine Or.inl ⟨⟨{ state.world with log := state.world.log ++ [path] }, faults⟩, ?_, rfl⟩
      rw [createNodeFaulty, hcall, hrun]
      rfl
    · exact Or.inr ⟨⟨after, faults⟩, by rw [createNodeFaulty, hcall, hrun]; rfl, hrun⟩
  · exact Or.inl ⟨⟨state.world, faults⟩, hcall, rfl⟩

/-- One step of `createMissingFaulty`. -/
theorem run_createMissingFaulty_cons (done rest : FilePath) (name : Name) (made : Bool)
    (state : FaultyWorld) :
    (createMissingFaulty done (name :: rest) made : EStateM ε FaultyWorld Bool).run state =
      if (state.world.tree.resolve (done ++ [name])).bind state.world.tree.get = some .dir then
        (createMissingFaulty (done ++ [name]) rest false).run state
      else if (state.world.tree.resolve (done ++ [name])).isSome then
        .error FileFault.filesystemError state
      else (createNodeFaulty (done ++ [name]) .dir >>= fun _ =>
        createMissingFaulty (done ++ [name]) rest true).run state := by
  rw [createMissingFaulty]
  simp only [run_bind, run_reliable, run_isDirectory, withFaults_ok, decide_eq_true_eq, run_ite,
    run_present, run_throw_eq]

/-- When a directory cannot be made, the ones before it on the path are there. -/
theorem run_createMissingFaulty_cases (done rest : FilePath) (made : Bool) (state : FaultyWorld) :
    (∃ flag after, (createMissingFaulty done rest made : EStateM ε FaultyWorld Bool).run state =
        .ok flag after ∧ (createMissing done rest made : EStateM ε World Bool).run state.world =
          .ok flag after.world) ∨
      ∃ front name flag middle after, front ++ [name] <+: rest ∧
        (createMissingFaulty done front made : EStateM ε FaultyWorld Bool).run state =
          .ok flag middle ∧
        (createMissing done front made : EStateM ε World Bool).run state.world =
          .ok flag middle.world ∧
        (createMissingFaulty done rest made : EStateM ε FaultyWorld Bool).run state =
          .error FileFault.filesystemError after ∧
        after.world.tree = middle.world.tree ∧
        (middle.world.tree.resolve (done ++ front ++ [name])).bind middle.world.tree.get ≠
          some .dir ∧
        ((middle.world.tree.resolve (done ++ front ++ [name])).isSome ∨ ∃ last,
          (createNodeFaulty (done ++ front ++ [name]) .dir : EStateM ε FaultyWorld Unit).run
            middle = .error FileFault.filesystemError last) := by
  induction rest generalizing done made state with
  | nil => exact Or.inl ⟨made, state, rfl, rfl⟩
  | cons name rest ih =>
      rw [run_createMissingFaulty_cons, run_createMissing_cons]
      by_cases hdir : (state.world.tree.resolve (done ++ [name])).bind state.world.tree.get =
          some .dir
      · rw [if_pos hdir, if_pos hdir]
        rcases ih (done ++ [name]) false state with hok |
          ⟨front, last, flag, middle, after, hfront, hfaulty, hrun, herror, hsame, hnot, hfails⟩
        · exact Or.inl hok
        · refine Or.inr ⟨name :: front, last, flag, middle, after, by simpa using hfront, ?_, ?_,
            herror, hsame, by simpa using hnot, by simpa using hfails⟩
          · rw [run_createMissingFaulty_cons, if_pos hdir, hfaulty]
          · rw [run_createMissing_cons, if_pos hdir, hrun]
      rw [if_neg hdir, if_neg hdir]
      by_cases hthere : (state.world.tree.resolve (done ++ [name])).isSome = true
      · rw [if_pos hthere]
        exact Or.inr ⟨[], name, made, state, state, by simp, rfl, rfl, rfl, rfl, by simpa using hdir,
          Or.inl (by simpa using hthere)⟩
      rw [if_neg hthere, if_neg hthere]
      rcases run_createNodeFaulty_cases (ε := ε) (done ++ [name]) .dir state with
        ⟨after, hnode, hsame⟩ | ⟨created, hnode, hreliable⟩
      · refine Or.inr ⟨[], name, made, state, after, by simp, rfl, rfl, ?_, hsame, by simpa using hdir,
          Or.inr ⟨after, by simpa using hnode⟩⟩
        rw [run_bind, hnode]
      · rw [run_bind, hnode, run_bind, hreliable]
        rcases ih (done ++ [name]) true created with hok |
          ⟨front, last, flag, middle, after, hfront, hfaulty, hrun, herror, hsame, hnot, hfails⟩
        · exact Or.inl hok
        · refine Or.inr ⟨name :: front, last, flag, middle, after, by simpa using hfront, ?_, ?_,
            herror, hsame, by simpa using hnot, by simpa using hfails⟩
          · rw [run_createMissingFaulty_cons, if_neg hdir, if_neg hthere, run_bind, hnode]
            exact hfaulty
          · rw [run_createMissing_cons, if_neg hdir, if_neg hthere, run_bind, hreliable]
            exact hrun

/-- New directories, all of them at stages of the path. -/
def FileTree.DirsAlong (path : FilePath) : FileTree → FileTree → Prop :=
  FileTree.Grows fun other node => node = .dir ∧ ∃ stage, stage <+: path ∧ other = normal [] stage

/-- What new directories along a plain path change. -/
theorem FileTree.DirsAlong.get {path : FilePath} {before after : FileTree}
    (h : FileTree.DirsAlong path before after) (hplain : Plain path) (other : FilePath) :
    after.get other = before.get other ∨
      before.get other = none ∧ after.get other = some .dir ∧ other <+: path := by
  rcases Grows.get h other with heq | ⟨hnone, node, hnode, rfl, stage, hstage, rfl⟩
  · exact Or.inl heq
  · refine Or.inr ⟨hnone, hnode, ?_⟩
    obtain ⟨rest, rfl⟩ := hstage
    rw [normal_of_plain fun name hname => hplain name (List.mem_append_left _ hname)]
    exact List.prefix_append _ _

/-- Links still lead to files. -/
theorem FileTree.DirsAlong.linksToFiles {path : FilePath} {before after : FileTree}
    (h : FileTree.DirsAlong path before after) (hlinks : before.LinksToFiles) :
    after.LinksToFiles := hlinks.of_grows h (by simp)

/-- Making sure that a directory is there makes new directories at stages of its path. -/
theorem dirsAlong_ensureDirectory {world : World} (path : FilePath)
    (hlinks : world.tree.LinksToFiles) :
    FileTree.DirsAlong path world.tree
      ((ensureDirectory path : EStateM ε World Bool).run world).state.tree := by
  rcases wentAlong_ensureDirectory (ε := ε) path hlinks with ⟨-, hrun⟩ | ⟨-, hwent⟩
  · rw [hrun]
    exact .refl _
  · refine hwent.grows.imp ?_
    rintro other node ⟨rfl, stage, hstage, rfl⟩
    obtain ⟨front, hfront, heq⟩ := FileTree.exists_prefix_of_filter hstage
    exact ⟨rfl, front, hfront, by rw [List.nil_append, heq]⟩

/-- When a directory fails, there are new directories at stages of the path. -/
theorem run_ensureDirectoryFaulty_cases {state : FaultyWorld} (path : FilePath)
    (hlinks : state.world.tree.LinksToFiles) :
    ∃ faults, (ensureDirectoryFaulty path : EStateM ε FaultyWorld Bool).run state =
        withFaults faults ((ensureDirectory path).run state.world) ∨
      ∃ after, (ensureDirectoryFaulty path : EStateM ε FaultyWorld Bool).run state =
          .error FileFault.filesystemError ⟨after, faults⟩ ∧
        FileTree.DirsAlong path state.world.tree after.tree := by
  simp only [ensureDirectoryFaulty, ensureDirectory, createDirectories, run_bind, run_reliable,
    run_present, withFaults_ok, run_ite]
  by_cases hthere : (state.world.tree.resolve path).isSome = true
  · simp only [if_pos hthere]
    exact ⟨state.faults, Or.inl rfl⟩
  simp only [if_neg hthere]
  rcases run_createMissingFaulty_cases (ε := ε) [] (path.filter (· ≠ [])) false state with
    ⟨flag, after, hok, hrun⟩ |
    ⟨front, name, flag, middle, after, hfront, -, hrun, herror, hsame, -, -⟩
  · refine ⟨after.faults, Or.inl ?_⟩
    rw [hok, hrun]
    rfl
  · refine ⟨after.faults, Or.inr ⟨after.world, herror, ?_⟩⟩
    have hwent := wentAlong_createMissing (ε := ε) front false hlinks (FileTree.passable_nil _)
    rw [hrun] at hwent
    rw [hsame]
    refine hwent.grows.imp ?_
    rintro other node ⟨rfl, stage, hstage, rfl⟩
    obtain ⟨beginning, hbeginning, heq⟩ := FileTree.exists_prefix_of_filter
      (hstage.trans ((List.prefix_append front [name]).trans hfront))
    exact ⟨rfl, beginning, hbeginning, by rw [List.nil_append, heq]⟩

/-- However it ends, there are new directories at stages of the path. -/
theorem dirsAlong_ensureDirectoryFaulty {state : FaultyWorld} (path : FilePath)
    (hlinks : state.world.tree.LinksToFiles) :
    FileTree.DirsAlong path state.world.tree
      ((ensureDirectoryFaulty path : EStateM ε FaultyWorld Bool).run state).state.world.tree := by
  obtain ⟨faults, hsame | ⟨after, herror, hdirs⟩⟩ :=
    run_ensureDirectoryFaulty_cases (ε := ε) path hlinks
  · rw [hsame, state_withFaults]
    exact dirsAlong_ensureDirectory path hlinks
  · rw [herror]
    exact hdirs

end Calls

end FileSystem
