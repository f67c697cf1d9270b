import AnarchNet.Lib.AsyncQueue
import AnarchNet.Lib.Path
import Mathlib.Data.List.Nodup
import Mathlib.Logic.Function.Basic
import Mathlib.Logic.Relation

/-!
# Walking a directory tree

`walk` of `setup.js`. A call of `walk` asks for the entries of a directory and for the status of
each of them, counts the answers down, and passes its results to the function that it was given. For
a subdirectory that function is one of the calling `walk`, which adds its first argument to the
results. The answers of the file system come in any order.
-/

namespace AnarchNet.Setup

open FileSystem

/-- A file or a directory with its entries. -/
inductive Node where
  | file
  | directory (entries : List (Name × Node))

/-- An element of the results. -/
inductive Value where
  | path (text : Bytes)
  | null
  | error
  deriving DecidableEq

/-- The variables of a call of `walk`. The numbers are those of the calls whose functions it was
given, from the inside to the outside; the outermost call was given `done`. -/
structure Walk where
  dir : Bytes
  results : List Value
  pending : Int
  done : List Nat

/-- A function that waits for an answer of the file system, with the answer that is right. -/
inductive Callback where
  | readdir (walk : Nat) (list : List (Name × Node))
  | stat (walk : Nat) (rname : Name) (file : Bytes) (node : Node)

/-- A call of `done`. -/
structure Call where
  err : Value
  results : List Value
  deriving DecidableEq

/-- The calls of `walk` so far, the functions that wait, and the calls of `done`. -/
structure System where
  walks : Nat → Walk
  next : Nat
  waiting : List Callback
  calls : List Call

namespace System

/-- Replace the variables of a call of `walk`. -/
def set (system : System) (walk : Nat) (value : Walk) : System :=
  { system with walks := Function.update system.walks walk value }

/-- The variables of a call of `walk` when something was added to the results and an answer was
counted. -/
def countDown (system : System) (walk : Nat) (added : List Value) : Walk :=
  { system.walks walk with
    results := (system.walks walk).results ++ added
    pending := (system.walks walk).pending - 1 }

/-- The function that a call of `walk` was given is called. That of a calling `walk` has one
parameter only, and calls the next function when it has counted to zero. -/
def callDone : List Nat → Value → List Value → System → System
  | [], err, results, system => { system with calls := system.calls ++ [⟨err, results⟩] }
  | walk :: outer, res, _, system =>
      let value := system.countDown walk [res]
      if value.pending = 0 then callDone outer .null value.results (system.set walk value)
      else system.set walk value

/-- The answer to a function that waits, which may be an error. -/
def handle (failed : Bool) (system : System) : Callback → System
  | .readdir walk list =>
      if failed then callDone (system.walks walk).done .error [] system
      else
        { system.set walk { system.walks walk with pending := list.length } with
          waiting := system.waiting ++ list.map fun (rname, node) =>
            .stat walk rname ((system.walks walk).dir ++ slash :: rname) node }
  | .stat walk rname file node =>
      match failed, node with
      | false, .directory list =>
          { system.set system.next
              { dir := file, results := [], pending := 0, done := walk :: (system.walks walk).done }
            with
            next := system.next + 1
            waiting := system.waiting ++ [.readdir system.next list] }
      | _, _ =>
          let value := system.countDown walk (if rname = dot then [] else [.path file])
          if value.pending = 0 then
            callDone value.done .null value.results (system.set walk value)
          else system.set walk value

/-- An answer to one of the functions that wait. -/
def answer (failed : Bool) (index : Nat) (system : System) : Option System := do
  let callback ← system.waiting[index]?
  return handle failed { system with waiting := system.waiting.eraseIdx index } callback

/-- An answer without an error. -/
def Step (system next : System) : Prop := ∃ index, system.answer false index = some next

end System

/-- The call of `walk` for a directory with these entries. -/
def start (dir : Bytes) (entries : List (Name × Node)) : System where
  walks _ := { dir := dir, results := [], pending := 0, done := [] }
  next := 1
  waiting := [.readdir 0 entries]
  calls := []

/-- The states that a walk can come to when no answer is an error. -/
def Reachable (dir : Bytes) (entries : List (Name × Node)) (system : System) : Prop :=
  Relation.ReflTransGen System.Step (start dir entries) system

mutual
/-- The paths of the files in a tree that is found under a path. -/
def Node.files (path : Bytes) : Node → List Bytes
  | .file => [path]
  | .directory entries => filesIn path entries

/-- The paths of the files in a directory. -/
def filesIn (dir : Bytes) : List (Name × Node) → List Bytes
  | [] => []
  | (name, node) :: rest => node.files (dir ++ slash :: name) ++ filesIn dir rest
end

mutual
/-- The names in every directory of a tree are different, and none is a dot. -/
def Node.WellFormed : Node → Prop
  | .file => True
  | .directory entries => WellFormedIn entries

/-- The names of the entries are different, none is a dot, and the entries are well formed. -/
def WellFormedIn : List (Name × Node) → Prop
  | [] => True
  | (name, node) :: rest =>
      name ≠ dot ∧ name ∉ rest.map Prod.fst ∧ node.WellFormed ∧ WellFormedIn rest
end

/-- Every walk ends; at its end `done` has been called once, without an error and with the path of
every file once and nothing else. -/
structure Lists (dir : Bytes) (entries : List (Name × Node)) : Prop where
  ends : WellFounded fun next system : System => system.Step next
  once : ∀ last, Reachable dir entries last → last.waiting = [] → ∃ results,
    last.calls = [⟨.null, results⟩] ∧ results.Nodup ∧
      ∀ value, value ∈ results ↔ ∃ path ∈ filesIn dir entries, value = .path path

/-! ## Every walk ends -/

mutual
/-- The answers that a tree needs. -/
def Node.size : Node → Nat
  | .file => 1
  | .directory entries => sizeIn entries + 2

/-- The answers that the entries of a directory need. -/
def sizeIn : List (Name × Node) → Nat
  | [] => 0
  | (_, node) :: rest => node.size + sizeIn rest
end

/-- The answers that a function still leads to. -/
def Callback.size : Callback → Nat
  | .readdir _ list => sizeIn list + 1
  | .stat _ _ _ node => node.size

/-- The answers that are still to come. -/
def System.size (system : System) : Nat := (system.waiting.map Callback.size).sum

/-- Every tree needs an answer. -/
theorem Node.size_pos (node : Node) : 0 < node.size := by
  cases node with
  | file => exact Nat.one_pos
  | directory entries => exact Nat.succ_pos _

/-- The entries of a directory need the answers that each of them needs. -/
theorem sum_size_stat (entries : List (Name × Node)) (walk : Nat) (file : Name → Bytes) :
    ((entries.map fun (rname, node) =>
      Callback.stat walk rname (file rname) node).map Callback.size).sum = sizeIn entries := by
  induction entries with
  | nil => rfl
  | cons entry rest ih =>
      rw [List.map_cons, List.map_cons, List.sum_cons, ih]
      rfl

namespace System

variable {system next : System}

@[simp] theorem waiting_set (walk : Nat) (value : Walk) :
    (system.set walk value).waiting = system.waiting := rfl

@[simp] theorem next_set (walk : Nat) (value : Walk) :
    (system.set walk value).next = system.next := rfl

@[simp] theorem calls_set (walk : Nat) (value : Walk) :
    (system.set walk value).calls = system.calls := rfl

@[simp] theorem walks_set_self (walk : Nat) (value : Walk) :
    (system.set walk value).walks walk = value := by
  simp [set]

/-- The other calls keep their variables. -/
theorem walks_set_of_ne {walk other : Nat} (h : other ≠ walk) (value : Walk) :
    (system.set walk value).walks other = system.walks other := by
  simp [set, Function.update_of_ne h]

/-- Calling the functions that were given asks for nothing. -/
@[simp] theorem waiting_callDone (chain : List Nat) (err : Value) (results : List Value)
    (system : System) : (callDone chain err results system).waiting = system.waiting := by
  induction chain generalizing err results system with
  | nil => rfl
  | cons walk outer ih =>
      simp only [callDone]
      split
      · rw [ih]
        rfl
      · rfl

/-- An answer leads to less than the function that waited for it. -/
theorem size_handle (failed : Bool) (system : System) (callback : Callback) :
    (handle failed system callback).size < system.size + callback.size := by
  have hpos : ∀ node : Node, 0 < node.size := Node.size_pos
  cases callback with
  | readdir walk list =>
      cases failed with
      | true => simp [handle, size, Callback.size]
      | false =>
          simp only [handle, Bool.false_eq_true, if_false, size, List.map_append, List.sum_append,
            Callback.size]
          rw [sum_size_stat list walk fun rname => (system.walks walk).dir ++ slash :: rname]
          omega
  | stat walk rname file node =>
      have hdone : ∀ value : Walk,
          (if value.pending = 0 then callDone value.done .null value.results (system.set walk value)
            else system.set walk value).waiting = system.waiting := by
        intro value
        split
        · rw [waiting_callDone]
          rfl
        · rfl
      have hsame : ∀ value : Walk, (if value.pending = 0 then
            callDone value.done .null value.results (system.set walk value)
            else system.set walk value).size < system.size + node.size := fun value => by
        rw [size, hdone]
        exact Nat.lt_add_of_pos_right (hpos node)
      cases failed with
      | true => exact hsame _
      | false =>
          cases node with
          | file => exact hsame _
          | directory list => simp [handle, size, Callback.size, Node.size]

/-- The functions that wait are the one that is answered and the others. -/
theorem exists_of_answer {failed : Bool} {index : Nat} (h : system.answer failed index = some next) :
    ∃ callback others, system.waiting.Perm (callback :: others) ∧
      next = handle failed { system with waiting := others } callback := by
  obtain ⟨callback, hcallback, hnext⟩ := Option.bind_eq_some_iff.1 h
  exact ⟨callback, _, AsyncQueue.perm_eraseIdx hcallback, (Option.some.inj hnext).symm⟩

/-- Every answer leaves less to come, an error as well. -/
theorem size_lt_of_answer {failed : Bool} {index : Nat}
    (h : system.answer failed index = some next) : next.size < system.size := by
  obtain ⟨callback, others, hperm, rfl⟩ := exists_of_answer h
  have hsum := (hperm.map Callback.size).sum_eq
  rw [List.map_cons, List.sum_cons] at hsum
  have hless := size_handle failed { system with waiting := others } callback
  rw [size] at hless ⊢
  simp only [size] at hless ⊢
  omega

/-- No walk goes on for ever. -/
theorem wellFounded_step : WellFounded fun next system : System => system.Step next := by
  refine Subrelation.wf (r := fun next system : System => next.size < system.size) ?_
    (InvImage.wf System.size Nat.lt_wfRel.wf)
  rintro next system ⟨index, hanswer⟩
  exact size_lt_of_answer hanswer

/-- Every walk can be gone on with until nothing waits. -/
theorem exists_idle (system : System) :
    ∃ last, Relation.ReflTransGen Step system last ∧ last.waiting = [] := by
  induction system using wellFounded_step.induction with
  | _ system ih =>
      cases hwaiting : system.waiting with
      | nil => exact ⟨system, .refl, hwaiting⟩
      | cons callback others =>
          have hstep : system.Step (handle false { system with waiting := others } callback) :=
            ⟨0, by simp [answer, hwaiting]⟩
          obtain ⟨last, hrun, hlast⟩ := ih _ hstep
          exact ⟨last, hrun.head hstep, hlast⟩

end System

/-! ## A directory of files -/

variable {dir : Bytes} {entries : List (Name × Node)} {system next last : System}

/-- A walk of a directory of files: some of them are left, and those that were answered are in the
results. `done` is called with the last one. -/
structure Counting (dir : Bytes) (names : List Name) (system : System) (left answered : List Name) :
    Prop where
  names : (left ++ answered).Perm names
  waiting : system.waiting.Perm (left.map fun rname => .stat 0 rname (dir ++ slash :: rname) .file)
  results : (system.walks 0).results = answered.map fun rname => .path (dir ++ slash :: rname)
  pending : (system.walks 0).pending = left.length
  done : (system.walks 0).done = []
  calls : system.calls = if left = [] then [⟨.null, (system.walks 0).results⟩] else []

/-- The answer for a file. -/
theorem Counting.answer {names left answered : List Name}
    (h : Counting dir names system left answered) (hnames : dot ∉ names)
    (hstep : system.Step next) :
    ∃ left answered, Counting dir names next left answered := by
  obtain ⟨index, hanswer⟩ := hstep
  obtain ⟨callback, others, hperm, rfl⟩ := System.exists_of_answer hanswer
  have hmem : callback ∈ left.map fun rname => .stat 0 rname (dir ++ slash :: rname) .file :=
    h.waiting.mem_iff.1 (hperm.mem_iff.2 List.mem_cons_self)
  obtain ⟨rname, hrname, rfl⟩ := List.mem_map.1 hmem
  obtain ⟨front, back, rfl⟩ := List.append_of_mem hrname
  have hdot : rname ≠ dot := fun heq =>
    hnames (heq ▸ h.names.mem_iff.1 (List.mem_append_left _ hrname))
  have hwaiting : others.Perm
      ((front ++ back).map fun rname => .stat 0 rname (dir ++ slash :: rname) .file) := by
    refine (List.perm_cons _).1 (hperm.symm.trans (h.waiting.trans ?_))
    exact List.perm_middle.map _
  have hpending := h.pending
  have hcalls := h.calls
  rw [if_neg (by simp)] at hcalls
  rw [List.length_append, List.length_cons] at hpending
  have hmoved : (front ++ back ++ (answered ++ [rname])).Perm names := by
    refine List.Perm.trans ?_ h.names
    rw [List.perm_iff_count]
    intro name
    simp only [List.count_append, List.count_cons, List.count_nil]
    omega
  set value := System.countDown { system with waiting := others } 0
    (if rname = dot then [] else [.path (dir ++ slash :: rname)]) with hvalue
  have hdone : value.done = [] := h.done
  have hresults : value.results =
      (answered ++ [rname]).map fun rname => .path (dir ++ slash :: rname) := by
    rw [hvalue, System.countDown, if_neg hdot, List.map_append, ← h.results]
    rfl
  have hcount : value.pending = (front ++ back).length := by
    have hless : value.pending = (system.walks 0).pending - 1 := rfl
    rw [hless, hpending, List.length_append]
    omega
  refine ⟨front ++ back, answered ++ [rname], ?_⟩
  have hhandle : System.handle false { system with waiting := others }
      (.stat 0 rname (dir ++ slash :: rname) .file) =
        if value.pending = 0 then
          System.callDone value.done .null value.results
            (System.set { system with waiting := others } 0 value)
        else System.set { system with waiting := others } 0 value := rfl
  rw [hhandle]
  by_cases hlast : front ++ back = []
  · -- the last answer: the function that is called is `done` itself
    have hzero : value.pending = 0 := by rw [hcount, hlast]; rfl
    rw [if_pos hzero, hdone, System.callDone]
    refine ⟨hmoved, hwaiting, ?_, ?_, ?_, ?_⟩
    · simpa [System.set] using hresults
    · simpa [System.set] using hcount
    · simpa [System.set] using hdone
    · simp [System.set, hcalls, hlast]
  · have hmore : value.pending ≠ 0 := by
      have := List.length_pos_of_ne_nil hlast
      omega
    rw [if_neg hmore]
    refine ⟨hmoved, hwaiting, ?_, ?_, ?_, ?_⟩
    · simpa [System.set] using hresults
    · simpa [System.set] using hcount
    · simpa [System.set] using hdone
    · rw [if_neg hlast]
      exact hcalls

/-- The names in a well formed directory are different, and none is a dot. -/
theorem WellFormedIn.names (h : WellFormedIn entries) :
    (entries.map Prod.fst).Nodup ∧ dot ∉ entries.map Prod.fst := by
  induction entries with
  | nil => simp
  | cons entry rest ih =>
      obtain ⟨hdot, hname, -, hrest⟩ := h
      obtain ⟨hnodup, hdots⟩ := ih hrest
      rw [List.map_cons, List.nodup_cons, List.mem_cons, not_or]
      exact ⟨⟨hname, hnodup⟩, Ne.symm hdot, hdots⟩

/-- The files of a directory of files. -/
theorem filesIn_of_files (hfiles : ∀ entry ∈ entries, entry.2 = .file) :
    filesIn dir entries = (entries.map Prod.fst).map fun rname => dir ++ slash :: rname := by
  induction entries with
  | nil => rfl
  | cons entry rest ih =>
      obtain ⟨rname, node⟩ := entry
      obtain rfl : node = .file := hfiles (rname, node) List.mem_cons_self
      rw [filesIn, ih fun other hother => hfiles other (List.mem_cons_of_mem _ hother), Node.files]
      rfl

/-- A walk asks for the entries first. -/
theorem eq_of_step_start (h : (start dir entries).Step next) :
    next = System.handle false { start dir entries with waiting := [] } (.readdir 0 entries) := by
  obtain ⟨index, hanswer⟩ := h
  obtain ⟨callback, hcallback, hnext⟩ := Option.bind_eq_some_iff.1 hanswer
  cases index with
  | zero =>
      obtain rfl : Callback.readdir 0 entries = callback := Option.some.inj hcallback
      exact (Option.some.inj hnext).symm
  | succ index => cases hcallback

/-- A walk of a directory of files is at its start or counts. -/
theorem counting_of_reachable (hdots : dot ∉ entries.map Prod.fst) (hne : entries ≠ [])
    (hfiles : ∀ entry ∈ entries, entry.2 = .file) (hreach : Reachable dir entries system) :
    system = start dir entries ∨
      ∃ left answered, Counting dir (entries.map Prod.fst) system left answered := by
  induction hreach with
  | refl => exact .inl rfl
  | tail _ hstep ih =>
      rcases ih with rfl | ⟨left, answered, hcounting⟩
      · refine .inr ⟨entries.map Prod.fst, [], ?_⟩
        rw [eq_of_step_start hstep]
        have hwaiting : (entries.map fun (rname, node) =>
            Callback.stat 0 rname (dir ++ slash :: rname) node) =
              (entries.map Prod.fst).map fun rname =>
                .stat 0 rname (dir ++ slash :: rname) .file := by
          rw [List.map_map]
          refine List.map_congr_left fun entry hentry => ?_
          simp only [Function.comp_apply, hfiles entry hentry]
        refine ⟨by simp, ?_, ?_, ?_, ?_, ?_⟩
        · simp [System.handle, start, hwaiting]
        · simp [System.handle, System.set, start]
        · simp [System.handle, System.set, start]
        · simp [System.handle, System.set, start]
        · simp [System.handle, System.set, start, hne]
      · exact .inr (hcounting.answer hdots hstep)

/-- A directory of files is listed. -/
theorem lists_of_files (h : WellFormedIn entries) (hne : entries ≠ [])
    (hfiles : ∀ entry ∈ entries, entry.2 = .file) : Lists dir entries := by
  obtain ⟨hnodup, hdots⟩ := h.names
  refine ⟨System.wellFounded_step, fun last hreach hidle => ?_⟩
  rcases counting_of_reachable hdots hne hfiles hreach with rfl | ⟨left, answered, hcounting⟩
  · cases hidle
  · have hleft : left = [] := by
      have hlength := hcounting.waiting.length_eq
      rw [hidle, List.length_map] at hlength
      exact List.length_eq_zero_iff.1 hlength.symm
    subst hleft
    have hnames : answered.Perm (entries.map Prod.fst) := hcounting.names
    have hinjective : Function.Injective fun rname : Name =>
        Value.path (dir ++ slash :: rname) := by
      intro left right heq
      simpa using heq
    refine ⟨_, hcounting.calls.trans (if_pos rfl), ?_, fun value => ?_⟩
    · rw [hcounting.results]
      exact (hnames.nodup_iff.2 hnodup).map hinjective
    · rw [hcounting.results, filesIn_of_files hfiles, (hnames.map _).mem_iff]
      constructor
      · intro hvalue
        obtain ⟨rname, hrname, rfl⟩ := List.mem_map.1 hvalue
        exact ⟨_, List.mem_map_of_mem hrname, rfl⟩
      · rintro ⟨path, hpath, rfl⟩
        obtain ⟨rname, hrname, rfl⟩ := List.mem_map.1 hpath
        exact List.mem_map.2 ⟨rname, hrname, rfl⟩

/-! ## A directory with a subdirectory -/

/-- Nothing is called for a directory without entries. -/
theorem calls_eq_nil_of_empty (hreach : Reachable dir [] system) : system.calls = [] := by
  have hstates : system = start dir [] ∨ system.waiting = [] ∧ system.calls = [] := by
    induction hreach with
    | refl => exact .inl rfl
    | tail _ hstep ih =>
        rcases ih with rfl | ⟨hidle, -⟩
        · rw [eq_of_step_start hstep]
          exact .inr ⟨rfl, rfl⟩
        · obtain ⟨index, hanswer⟩ := hstep
          simp [System.answer, hidle] at hanswer
  rcases hstates with rfl | ⟨-, hcalls⟩
  · rfl
  · exact hcalls

/-- The call of `walk` that a function belongs to. -/
def Callback.walk : Callback → Nat
  | .readdir walk _ => walk
  | .stat walk _ _ _ => walk

/-- The function waits for the status of an entry of the outermost directory. -/
def Callback.ofEntry : Callback → Bool
  | .stat 0 _ _ _ => true
  | _ => false

/-- The function waits for the status of a subdirectory of the outermost directory. -/
def Callback.ofSubdirectory : Callback → Bool
  | .stat 0 _ _ (.directory _) => true
  | _ => false

/-- A walk that has a subdirectory. Its result counts only after null was added to the results: until
then every subdirectory is still to be asked for or was started and has not been counted. -/
structure Losing (system : System) : Prop where
  calls : ∀ call ∈ system.calls, .null ∈ call.results
  next : 0 < system.next
  outermost : (system.walks 0).done = []
  inner : ∀ walk, 0 < walk → walk < system.next → (system.walks walk).done.getLast? = some 0
  waiting : ∀ callback ∈ system.waiting, callback.walk < system.next ∧
    ∀ list, callback ≠ .readdir 0 list
  counted : .null ∈ (system.walks 0).results ∨ ∃ started : Nat,
    (system.walks 0).pending = (system.waiting.countP Callback.ofEntry + started : Nat) ∧
      0 < system.waiting.countP Callback.ofSubdirectory + started

/-- What a function given by the outermost call does, called by an inner one: null is added to the
results before anything else is called. -/
theorem callDone_adds_null {chain : List Nat} (hlast : chain.getLast? = some 0)
    (results : List Value) (system : System)
    (hcalls : ∀ call ∈ system.calls, .null ∈ call.results) :
    (∀ call ∈ (System.callDone chain .null results system).calls, .null ∈ call.results) ∧
      (System.callDone chain .null results system).next = system.next ∧
      (∀ walk, ((System.callDone chain .null results system).walks walk).done =
        (system.walks walk).done) ∧
      ((System.callDone chain .null results system).walks 0 = system.walks 0 ∨
        .null ∈ ((System.callDone chain .null results system).walks 0).results) := by
  induction chain generalizing results system with
  | nil => cases hlast
  | cons walk outer ih =>
      have hadded : .null ∈ (system.countDown walk [.null]).results :=
        List.mem_append_right _ (List.mem_singleton_self _)
      have hdone : ∀ other,
          ((system.set walk (system.countDown walk [.null])).walks other).done =
            (system.walks other).done := by
        intro other
        by_cases hother : other = walk
        · rw [hother]
          simp [System.set, System.countDown]
        · simp [System.set, Function.update_of_ne hother]
      have hroot : (system.set walk (system.countDown walk [.null])).walks 0 = system.walks 0 ∨
          .null ∈ ((system.set walk (system.countDown walk [.null])).walks 0).results := by
        by_cases hzero : 0 = walk
        · rw [← hzero] at hadded ⊢
          exact .inr (by simpa [System.set] using hadded)
        · exact .inl (by simp [System.set, Function.update_of_ne hzero])
      rw [System.callDone]
      split
      · cases outer with
        | nil =>
            -- the function that was given is `done` itself
            refine ⟨fun call hcall => ?_, rfl, hdone, hroot⟩
            rcases List.mem_append.1 hcall with hcall | hcall
            · exact hcalls call hcall
            · rw [List.mem_singleton.1 hcall]
              exact hadded
        | cons next rest =>
            rw [List.getLast?_cons_cons] at hlast
            obtain ⟨h1, h2, h3, h4⟩ := ih hlast (system.countDown walk [.null]).results
              (system.set walk (system.countDown walk [.null])) hcalls
            refine ⟨h1, h2, fun other => (h3 other).trans (hdone other), ?_⟩
            rcases h4 with h4 | h4
            · rw [h4]
              exact hroot
            · exact .inr h4
      · exact ⟨hcalls, rfl, hdone, hroot⟩

namespace Losing

variable {others : List Callback}

/-- The functions that wait for a status, with one of them and without it. -/
theorem countP_waiting {callback : Callback} (hperm : system.waiting.Perm (callback :: others))
    (p : Callback → Bool) :
    system.waiting.countP p = others.countP p + if p callback then 1 else 0 := by
  rw [hperm.countP_eq p, List.countP_cons]

/-- A subdirectory is an entry. -/
theorem countP_ofSubdirectory_le (waiting : List Callback) :
    waiting.countP Callback.ofSubdirectory ≤ waiting.countP Callback.ofEntry := by
  refine List.countP_mono_left fun callback _ hcallback => ?_
  cases callback with
  | readdir walk list => cases hcallback
  | stat walk rname file node =>
      cases walk with
      | zero => rfl
      | succ walk => cases hcallback

/-- The entries of a subdirectory. -/
theorem readdir {walk : Nat} {list : List (Name × Node)} (h : Losing system)
    (hperm : system.waiting.Perm (.readdir walk list :: others)) :
    Losing (System.handle false { system with waiting := others } (.readdir walk list)) := by
  obtain ⟨hwalk, hinner⟩ := h.waiting (.readdir walk list) (hperm.mem_iff.2 List.mem_cons_self)
  obtain ⟨inner, rfl⟩ : ∃ inner, walk = inner + 1 :=
    ⟨walk - 1, by
      have hne : walk ≠ 0 := fun hzero => hinner list (by rw [hzero])
      omega⟩
  have hroot : (0 : Nat) ≠ inner + 1 := by omega
  have hstats : ∀ p : Callback → Bool, (∀ rname file node, p (.stat (inner + 1) rname file node) =
      false) → (list.map fun (rname, node) => Callback.stat (inner + 1) rname
        ((system.walks (inner + 1)).dir ++ slash :: rname) node).countP p = 0 := by
    intro p hp
    rw [List.countP_eq_zero]
    intro callback hcallback
    obtain ⟨entry, -, rfl⟩ := List.mem_map.1 hcallback
    simp [hp]
  have hentry := hstats Callback.ofEntry fun _ _ _ => rfl
  have hsub := hstats Callback.ofSubdirectory fun _ _ _ => rfl
  refine ⟨h.calls, h.next, ?_, fun other hpos hlt => ?_, fun callback hcallback => ?_, ?_⟩
  · simpa [System.handle, System.set, Function.update_of_ne hroot] using h.outermost
  · by_cases hother : other = inner + 1
    · rw [hother]
      simpa [System.handle, System.set] using h.inner (inner + 1) (by omega) hwalk
    · simpa [System.handle, System.set, Function.update_of_ne hother] using h.inner other hpos hlt
  · rcases List.mem_append.1 hcallback with hcallback | hcallback
    · exact h.waiting callback (hperm.mem_iff.2 (List.mem_cons_of_mem _ hcallback))
    · obtain ⟨entry, -, rfl⟩ := List.mem_map.1 hcallback
      exact ⟨hwalk, fun _ heq => by cases heq⟩
  · have hcounted := h.counted
    rw [countP_waiting hperm, countP_waiting hperm] at hcounted
    simpa [System.handle, System.set, Function.update_of_ne hroot, List.countP_append, hentry, hsub,
      Callback.ofEntry, Callback.ofSubdirectory] using hcounted

/-- The status of a directory: another call of `walk` is started. -/
theorem directory {walk : Nat} {rname : Name} {file : Bytes} {list : List (Name × Node)}
    (h : Losing system)
    (hperm : system.waiting.Perm (.stat walk rname file (.directory list) :: others)) :
    Losing (System.handle false { system with waiting := others }
      (.stat walk rname file (.directory list))) := by
  obtain ⟨hwalk, -⟩ := h.waiting _ (hperm.mem_iff.2 List.mem_cons_self)
  have hpos := h.next
  have hroot : 0 ≠ system.next := by omega
  refine ⟨h.calls, Nat.succ_pos _, ?_, fun other hother hlt => ?_, fun callback hcallback => ?_, ?_⟩
  · simpa [System.handle, System.set, Function.update_of_ne hroot] using h.outermost
  · by_cases hnew : other = system.next
    · rw [hnew]
      simp only [System.handle, System.set, Function.update_self]
      cases walk with
      | zero => rw [h.outermost]; rfl
      | succ inner =>
          have hlast := h.inner (inner + 1) (Nat.succ_pos _) hwalk
          rw [List.getLast?_cons, hlast]
          rfl
    · have hold : other < system.next := by
        have : other < system.next + 1 := hlt
        omega
      simpa [System.handle, System.set, Function.update_of_ne hnew] using h.inner other hother hold
  · rcases List.mem_append.1 hcallback with hcallback | hcallback
    · obtain ⟨hlt, hinner⟩ := h.waiting callback (hperm.mem_iff.2 (List.mem_cons_of_mem _ hcallback))
      exact ⟨Nat.lt_succ_of_lt hlt, hinner⟩
    · rw [List.mem_singleton.1 hcallback]
      refine ⟨Nat.lt_succ_self _, fun _ heq => ?_⟩
      rw [Callback.readdir.injEq] at heq
      exact hroot heq.1.symm
  · have hcounted := h.counted
    rw [countP_waiting hperm, countP_waiting hperm] at hcounted
    have hsame : (System.handle false { system with waiting := others }
        (.stat walk rname file (.directory list))).walks 0 = system.walks 0 := by
      simp [System.handle, System.set, Function.update_of_ne hroot]
    have hcount : ∀ p : Callback → Bool, p (.readdir system.next list) = false →
        (System.handle false { system with waiting := others }
          (.stat walk rname file (.directory list))).waiting.countP p = others.countP p := by
      intro p hp
      simp [System.handle, hp]
    rw [hsame, hcount Callback.ofEntry rfl, hcount Callback.ofSubdirectory rfl]
    refine hcounted.imp_right fun ⟨started, hpending, hleft⟩ => ?_
    cases walk with
    | zero =>
        -- the subdirectory was asked for, and now it is started
        simp only [Callback.ofEntry, Callback.ofSubdirectory, if_true] at hpending hleft
        exact ⟨started + 1, by omega, by omega⟩
    | succ inner => exact ⟨started, hpending, hleft⟩

/-- The status of a file. -/
theorem file {walk : Nat} {rname : Name} {file : Bytes} (h : Losing system)
    (hperm : system.waiting.Perm (.stat walk rname file .file :: others)) :
    Losing (System.handle false { system with waiting := others }
      (.stat walk rname file .file)) := by
  obtain ⟨hwalk, -⟩ := h.waiting _ (hperm.mem_iff.2 List.mem_cons_self)
  have hothers : ∀ callback ∈ others, callback.walk < system.next ∧
      ∀ list, callback ≠ .readdir 0 list := fun callback hcallback =>
    h.waiting callback (hperm.mem_iff.2 (List.mem_cons_of_mem _ hcallback))
  have hcounted := h.counted
  rw [countP_waiting hperm, countP_waiting hperm] at hcounted
  set added : List Value := if rname = dot then [] else [.path file] with hadded
  set value := System.countDown { system with waiting := others } walk added with hvalue
  have hhandle : System.handle false { system with waiting := others } (.stat walk rname file .file) =
      if value.pending = 0 then
        System.callDone value.done .null value.results
          (System.set { system with waiting := others } walk value)
      else System.set { system with waiting := others } walk value := rfl
  have hdone : ∀ other, ((System.set { system with waiting := others } walk value).walks other).done =
      (system.walks other).done := by
    intro other
    by_cases hother : other = walk
    · rw [hother]
      simp [System.set, hvalue, System.countDown]
    · simp [System.set, Function.update_of_ne hother]
  have hset : Losing (System.set { system with waiting := others } walk value) := by
    refine ⟨h.calls, h.next, (hdone 0).trans h.outermost, fun other hpos hlt => ?_, hothers, ?_⟩
    · rw [hdone other]
      exact h.inner other hpos hlt
    · cases walk with
      | zero =>
          rw [System.walks_set_self, System.waiting_set]
          rcases hcounted with hnull | ⟨started, hpending, hleft⟩
          · exact .inl (List.mem_append_left _ hnull)
          · refine .inr ⟨started, ?_, hleft⟩
            have hless : value.pending = (system.walks 0).pending - 1 := rfl
            simp only [Callback.ofEntry, if_true] at hpending
            change value.pending = (others.countP Callback.ofEntry + started : Nat)
            omega
      | succ inner =>
          rw [System.walks_set_of_ne (Nat.succ_ne_zero inner).symm]
          exact hcounted
  rw [hhandle]
  split
  · rename_i hzero
    cases walk with
    | zero =>
        -- the last answer of all: nothing is left but subdirectories that were counted
        have hnull : .null ∈ value.results := by
          have hlast := hset.counted
          rw [System.walks_set_self] at hlast
          refine hlast.resolve_right ?_
          rintro ⟨started, hpending, hleft⟩
          have hle := countP_ofSubdirectory_le
            (System.set { system with waiting := others } 0 value).waiting
          omega
        have houtermost : value.done = [] := h.outermost
        rw [houtermost, System.callDone]
        refine { hset with calls := fun call hcall => ?_ }
        rcases List.mem_append.1 hcall with hcall | hcall
        · exact h.calls call hcall
        · rw [List.mem_singleton.1 hcall]
          exact hnull
    | succ inner =>
        have hlast : value.done.getLast? = some 0 := h.inner (inner + 1) (Nat.succ_pos _) hwalk
        obtain ⟨hcalls, hnext, hsame, hroot⟩ := callDone_adds_null hlast value.results
          (System.set { system with waiting := others } (inner + 1) value) hset.calls
        refine ⟨hcalls, ?_, (hsame 0).trans hset.outermost, fun other hpos hlt => ?_, ?_, ?_⟩
        · rw [hnext]
          exact hset.next
        · rw [hnext] at hlt
          rw [hsame other]
          exact hset.inner other hpos hlt
        · rw [System.waiting_callDone, hnext]
          exact hset.waiting
        · rw [System.waiting_callDone]
          rcases hroot with hroot | hroot
          · rw [hroot]
            exact hset.counted
          · exact .inl hroot
  · exact hset

end Losing

/-- An answer in a walk that has a subdirectory. -/
theorem Losing.answer (h : Losing system) (hstep : system.Step next) : Losing next := by
  obtain ⟨index, hanswer⟩ := hstep
  obtain ⟨callback, others, hperm, rfl⟩ := System.exists_of_answer hanswer
  cases callback with
  | readdir walk list => exact h.readdir hperm
  | stat walk rname file node =>
      cases node with
      | file => exact h.file hperm
      | directory list => exact h.directory hperm

/-- A walk when the entries of the outermost directory are known. -/
theorem losing_of_directory {rname : Name} {list : List (Name × Node)}
    (hentry : (rname, .directory list) ∈ entries) :
    Losing (System.handle false { start dir entries with waiting := [] } (.readdir 0 entries)) := by
  have hwaiting : (System.handle false { start dir entries with waiting := [] }
      (.readdir 0 entries)).waiting = entries.map fun (rname, node) =>
        .stat 0 rname (dir ++ slash :: rname) node := rfl
  refine ⟨fun call hcall => (by cases hcall), Nat.one_pos, ?_, fun walk hpos hlt => ?_,
    fun callback hcallback => ?_, .inr ⟨0, ?_, ?_⟩⟩
  · simp [System.handle, System.set, start]
  · have : walk < 1 := hlt
    omega
  · rw [hwaiting] at hcallback
    obtain ⟨entry, -, rfl⟩ := List.mem_map.1 hcallback
    exact ⟨Nat.one_pos, fun _ heq => by cases heq⟩
  · have hall : (entries.map fun (rname, node) =>
        Callback.stat 0 rname (dir ++ slash :: rname) node).countP Callback.ofEntry =
          entries.length := by
      rw [List.countP_map, List.countP_eq_length]
      exact fun entry _ => rfl
    rw [hwaiting, hall]
    simp [System.handle, System.set, start]
  · rw [hwaiting, Nat.add_zero, List.countP_pos_iff]
    exact ⟨_, List.mem_map_of_mem hentry, rfl⟩

/-- A subdirectory is not listed. -/
theorem null_mem_of_directory {rname : Name} {list : List (Name × Node)}
    (hentry : (rname, .directory list) ∈ entries) (hreach : Reachable dir entries system) :
    ∀ call ∈ system.calls, .null ∈ call.results := by
  have hstates : system = start dir entries ∨ Losing system := by
    induction hreach with
    | refl => exact .inl rfl
    | tail _ hstep ih =>
        rcases ih with rfl | hlosing
        · rw [eq_of_step_start hstep]
          exact .inr (losing_of_directory hentry)
        · exact .inr (hlosing.answer hstep)
  rcases hstates with rfl | hlosing
  · intro call hcall
    cases hcall
  · exact hlosing.calls

/-- `walk` lists the files of a tree exactly if the directory has entries and all of them are
files. -/
theorem lists_iff (dir : Bytes) (entries : List (Name × Node)) (h : WellFormedIn entries) :
    Lists dir entries ↔ entries ≠ [] ∧ ∀ entry ∈ entries, entry.2 = .file := by
  constructor
  · intro hlists
    obtain ⟨last, hreach, hidle⟩ := System.exists_idle (start dir entries)
    obtain ⟨results, hcalls, -, hresults⟩ := hlists.once last hreach hidle
    refine ⟨?_, ?_⟩
    · rintro rfl
      rw [calls_eq_nil_of_empty hreach] at hcalls
      cases hcalls
    · rintro ⟨rname, node⟩ hentry
      cases node with
      | file => rfl
      | directory list =>
          have hnull := null_mem_of_directory hentry hreach ⟨.null, results⟩ (by simp [hcalls])
          obtain ⟨path, -, hpath⟩ := (hresults .null).1 hnull
          cases hpath
  · rintro ⟨hne, hfiles⟩
    exact lists_of_files h hne hfiles

/-- A directory with two files. -/
theorem lists_two_files : Lists [114] [([97], .file), ([98], .file)] := by
  refine (lists_iff [114] [([97], .file), ([98], .file)] ?_).2 ⟨by decide, ?_⟩
  · simp [WellFormedIn, Node.WellFormed, dot]
  · simp

/-- A directory with a file in a subdirectory: the results consist of null. -/
theorem not_lists_nested : ¬ Lists [114] [([100], .directory [([102], .file)])] := by
  intro h
  -- the entries of the directory, its entry, the entries of the subdirectory, and its entry
  have hrun : ∃ last, Reachable [114] [([100], .directory [([102], .file)])] last ∧
      last.waiting = [] ∧ last.calls = [⟨.null, [.null]⟩] :=
    ⟨_, .head ⟨0, rfl⟩ (.head ⟨0, rfl⟩ (.head ⟨0, rfl⟩ (.head ⟨0, rfl⟩ .refl))), rfl, rfl⟩
  obtain ⟨last, hreach, hidle, hnull⟩ := hrun
  obtain ⟨results, hcalls, -, hresults⟩ := h.once last hreach hidle
  rw [hnull, List.cons.injEq, Call.mk.injEq] at hcalls
  have hmem : Value.null ∈ results := by simp [← hcalls.1.2]
  obtain ⟨path, -, hpath⟩ := (hresults .null).1 hmem
  cases hpath

end AnarchNet.Setup
