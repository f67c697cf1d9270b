import AnarchNet.Frontend.UpdateRepo
import AnarchNet.Rpc.Request

/-!
# Updating a repository again and again

Every run of `updateRepo` starts from the list of packages that the last one stored and appends an
entry for each entry of the master list. `getPackage` and `cacheApp` look a name up in that list and
take the last entry that has it. So the last run counts for them, but the entries of the earlier
runs stay.
-/

namespace AnarchNet.Ppm

open FileSystem Json AsyncQueue

/-! ## Looking a package up -/

/-- The loop over the packages of a repository: the last entry with the name is taken. -/
def findPackage (packages : List Entry) (id : Bytes) : Option Entry :=
  packages.foldl (fun found entry => if entry.name = id then some entry else found) none

/-- `getPackage`, with the packages of the repository if that is found. The database is asked for the
package, and its answer is passed on. -/
def getPackage (objects : Bytes → Option Package) (repo : Option (List Entry))
    (id repoid : Bytes) : Except Bytes (Option Package) :=
  match repo with
  | none => .error (ascii "Repo not found!" ++ repoid)
  | some packages =>
      match findPackage packages id with
      | none => .error (ascii "package not found in repo: " ++ id)
      | some pack => .ok (objects pack.id)

/-- `ac`, what is stored for an app. -/
structure AppCache where
  name : Bytes
  revid : Option Value
  content : Bytes

/-- What `cacheApp` asks for: the page that the template yields for a name and a code, the page of
an app that has one, and whether storing succeeds. -/
structure Pages where
  renderFile : Bytes → Bytes → Option Bytes
  html : Value → Option Bytes
  store : AppCache → Bool

/-- What becomes of a call of `cacheApp`. -/
inductive Cached where
  | error (message : Bytes)
  | thrown
  | stored (ac : AppCache)

/-- `saveCache`. -/
def saveCache (pages : Pages) (id : Bytes) (revid : Option Value) (content : Bytes) : Cached :=
  let ac : AppCache := { name := id, revid := revid, content := content }
  if pages.store ac then .stored ac else .thrown

/-- `cacheApp` when the package was found. -/
def cacheItem (pages : Pages) (id : Bytes) (item : Package) : Cached :=
  match item.html with
  | none =>
      match pages.renderFile id item.code with
      | none => .thrown
      | some html => saveCache pages id item.revid html
  | some file =>
      match pages.html file with
      | none => .thrown
      | some res => saveCache pages id item.revid res

/-- `cacheApp`. -/
def cacheApp (objects : Bytes → Option Package) (pages : Pages) (id : Bytes)
    (packages : List Entry) : Cached :=
  match findPackage packages id with
  | none => .error (ascii "package not found: " ++ id)
  | some pack =>
      match objects pack.id with
      | none => .error (ascii "Package not found!" ++ pack.id)
      | some item => cacheItem pages id item

/-! ## Runs one after the other -/

namespace Update

variable (update : Update)

/-- A run has stored this list of packages: the answer came for the source that sent it. -/
def Stores (sent : List Entry) : Prop :=
  ∃ before after who, update.Reachable before ∧ Members.Step update.answer before after ∧
    before.member who = .storing sent ∧ after.member who = .finished

/-- The text of a code of an app. -/
def codeText (info : AppInfo) (ctask : Bytes) : Bytes :=
  ((info.code.lookup ctask).bind update.database.code).getD []

/-- The package of an app when some of its codes are loaded. -/
def withCode (item : Item) (info : AppInfo) (loaded : List Bytes) : Package :=
  { update.newPackage item info with code := loaded.flatMap (update.codeText info) }

/-- The package that is built for an entry of the master list. -/
def built (item : Item) : Option Package :=
  (update.database.appinfo item.info).map fun info =>
    update.withCode item info (info.code.map Prod.fst)

/-- The entry that is appended for an entry of the master list. -/
def entry (item : Item) : Option Entry := do
  let pack ← update.built item
  let id ← update.database.storePackage pack
  return { name := pack.name, id := id }

end Update

/-- A repository with one source that is updated again and again. The database may answer
differently in every run, but the master list stays as it is. -/
structure Repeated where
  databases : Nat → Database
  repoid : Bytes
  source : Bytes
  revids : Nat → Option Value
  packages : List Entry
  masterlist : List Item
  unchanged : ∀ index, (databases index).masterlist source = some masterlist
  nonempty : masterlist ≠ []
  distinct : (masterlist.map Item.name).Nodup

namespace Repeated

variable (repeated : Repeated)

/-- A run, with the packages that are stored before it. -/
def update (index : Nat) (packages : List Entry) : Update where
  database := repeated.databases index
  repoid := repeated.repoid
  repo := { sources := [repeated.source], packages := packages, revid := repeated.revids index }

/-- The packages that are stored after this many completed runs. -/
inductive Stored : Nat → List Entry → Prop
  | start : Stored 0 repeated.packages
  | run {index : Nat} {packages sent : List Entry} (hstored : Stored index packages)
      (hrun : (repeated.update index packages).Stores sent) : Stored (index + 1) sent

/-- The name of the app of an entry of the master list in a run. -/
def appName (index : Nat) (item : Item) : Option Bytes :=
  ((repeated.databases index).appinfo item.info).map AppInfo.name

/-- There is one entry for every name of the master list, and both lookups of the name lead to the
package of that name that this run built. -/
structure Refreshed (update : Update) (objects : Bytes → Option Package) (pages : Pages)
    (sent : List Entry) : Prop where
  once : ∀ item ∈ repeated.masterlist, sent.countP (·.name = item.name) = 1
  found : ∀ item ∈ repeated.masterlist, ∃ other ∈ repeated.masterlist, ∃ pack,
    update.built other = some pack ∧ pack.name = item.name ∧
      getPackage objects (some sent) item.name repeated.repoid = .ok (some pack) ∧
      cacheApp objects pages item.name sent = cacheItem pages item.name pack

/-- Neither the packages at first nor the apps of the runs before this one have a name of the master
list, and in this run one app has it. -/
structure FirstTime (last : Nat) : Prop where
  stored : ∀ item ∈ repeated.masterlist, ∀ entry ∈ repeated.packages, entry.name ≠ item.name
  earlier : ∀ item ∈ repeated.masterlist, ∀ index < last, ∀ other ∈ repeated.masterlist,
    repeated.appName index other ≠ some item.name
  named : ∀ item ∈ repeated.masterlist,
    repeated.masterlist.countP (fun other => repeated.appName last other = some item.name) = 1

end Repeated

/-! ## The list that a run stores -/

namespace Update

variable {update : Update} {item : Item} {source : Source} {shared : Shared}

variable (update)

/-- The work is on this entry and has come this far: code is loaded in order, and then the package is
complete. -/
def Builds (item : Item) : Work → Prop
  | .fetching other => other = item
  | .loadingCode pack info cq => update.database.appinfo item.info = some info ∧
      ∃ loaded left, info.code.map Prod.fst = loaded ++ left ∧ cq = ofTasks 1 id left ∧
        pack = update.withCode item info loaded
  | .storingResources pack _ => update.built item = some pack
  | .saving pack => update.built item = some pack
  | .stopped => True

/-- The source has come this far with its master list: the entries that are done are appended to the
packages in order. -/
def Appends (masterlist : List Item) (source : Source) (packages : List Entry) : Prop :=
  match source with
  | .fetching source =>
      update.database.masterlist source = some masterlist ∧ packages = update.repo.packages
  | .loading q => ∃ done left added, masterlist = done ++ left ∧
      done.map update.entry = added.map some ∧ packages = update.repo.packages ++ added ∧
        match left with
        | [] => q = ⟨[], []⟩
        | item :: rest => ∃ work, q = ⟨rest, [work]⟩ ∧ update.Builds item work
  | .storing sent => sent = packages ∧ ∃ added, masterlist.map update.entry = added.map some ∧
      packages = update.repo.packages ++ added
  | .finished => True
  | .abandoned => True

variable {update}

/-- With one worker at a time the first task is under way and the others wait. -/
theorem ofTasks_one {τ ω : Type} (start : τ → ω) (task : τ) (rest : List τ) :
    ofTasks 1 start (task :: rest) = ⟨rest, [start task]⟩ := rfl

/-- When the only worker has called back the next task is started. -/
theorem finish_one {τ ω : Type} (start : τ → ω) (worker : ω) (rest : List τ) :
    finish 1 start 0 ⟨rest, [worker]⟩ = ofTasks 1 start rest := rfl

/-- A queue of which a task is under way has not drained. -/
theorem drained_one {τ ω : Type} (start : τ → ω) (task : τ) (rest : List τ) :
    (ofTasks 1 start (task :: rest)).drained = false := by
  simp [ofTasks_one, drained]

/-- A worker of a queue that has one. -/
theorem eq_of_getElem?_singleton {ω : Type} {worker found : ω} {index : Nat}
    (h : [worker][index]? = some found) : index = 0 ∧ found = worker := by
  cases index with
  | zero => exact ⟨rfl, (Option.some.inj h).symm⟩
  | succ index => cases h

/-- Another code is loaded. -/
theorem addCode_withCode (info : AppInfo) (loaded : List Bytes) (ctask : Bytes) :
    update.addCode (update.withCode item info loaded) info ctask =
      update.withCode item info (loaded ++ [ctask]) := by
  simp [addCode, withCode, codeText]

/-- When all code is loaded the package is complete. -/
theorem builds_loadResources {pack : Package} {info : AppInfo} (h : update.built item = some pack) :
    update.Builds item (loadResources pack info) := by
  unfold loadResources
  split
  · exact h
  · exact h

/-- The work on an entry goes on, or the entry is what is appended. -/
theorem Builds.outcome {request : Nat} {work : Work} {outcome : Outcome} (h : update.Builds item work)
    (hwork : update.workOn request work = some outcome) :
    (∀ next, outcome = .working next → update.Builds item next) ∧
      ∀ entry, outcome = .saved entry → update.entry item = some entry := by
  cases work with
  | fetching other =>
      obtain rfl : other = item := h
      rw [workOn, Option.ite_none_left_eq_some] at hwork
      obtain ⟨-, hwork⟩ := hwork
      cases hinfo : update.database.appinfo other.info with
      | none =>
          simp only [hinfo, Option.some.injEq] at hwork
          subst hwork
          exact ⟨fun _ heq => (by cases heq), fun _ heq => by cases heq⟩
      | some info =>
          simp only [hinfo, Option.some.injEq] at hwork
          subst hwork
          refine ⟨fun next heq => ?_, fun _ heq => by cases heq⟩
          rw [← Outcome.working.inj heq]
          exact ⟨hinfo, [], info.code.map Prod.fst, rfl, rfl, rfl⟩
  | loadingCode pack info cq =>
      obtain ⟨hinfo, loaded, left, hcode, rfl, rfl⟩ := h
      obtain ⟨ctask, hctask, rfl⟩ := Option.map_eq_some_iff.1 hwork
      cases left with
      | nil => cases hctask
      | cons first rest =>
          obtain ⟨hzero, hfirst⟩ := eq_of_getElem?_singleton hctask
          rw [hzero, show ctask = first from hfirst, addCode_withCode, ofTasks_one, finish_one]
          cases rest with
          | nil =>
              -- this was the last code
              have hbuilt : update.built item =
                  some (update.withCode item info (loaded ++ [first])) := by
                rw [built, hinfo, Option.map_some, hcode]
              refine ⟨fun next heq => ?_, fun _ heq => by cases heq⟩
              rw [← Outcome.working.inj heq]
              exact builds_loadResources hbuilt
          | cons second rest =>
              simp only [drained_one, Bool.false_eq_true, if_false]
              refine ⟨fun next heq => ?_, fun _ heq => by cases heq⟩
              rw [← Outcome.working.inj heq]
              exact ⟨hinfo, loaded ++ [first], second :: rest, by simp [hcode], rfl, rfl⟩
  | storingResources pack lrq =>
      obtain ⟨lrtask, -, rfl⟩ := Option.map_eq_some_iff.1 hwork
      have hbuilt : update.built item = some pack := h
      dsimp only
      split
      · split
        · refine ⟨fun next heq => ?_, fun _ heq => by cases heq⟩
          rw [← Outcome.working.inj heq]
          exact hbuilt
        · refine ⟨fun next heq => ?_, fun _ heq => by cases heq⟩
          rw [← Outcome.working.inj heq]
          exact hbuilt
      · exact ⟨fun _ heq => (by cases heq), fun _ heq => by cases heq⟩
  | saving pack =>
      have hbuilt : update.built item = some pack := h
      rw [workOn, Option.ite_none_left_eq_some] at hwork
      obtain ⟨-, hwork⟩ := hwork
      cases hid : update.database.storePackage pack with
      | none =>
          simp only [hid, Option.some.injEq] at hwork
          subst hwork
          exact ⟨fun _ heq => (by cases heq), fun _ heq => by cases heq⟩
      | some id =>
          simp only [hid, Option.some.injEq] at hwork
          subst hwork
          refine ⟨fun _ heq => (by cases heq), fun found heq => ?_⟩
          rw [← Outcome.saved.inj heq, entry, hbuilt, Option.bind_eq_bind, Option.bind_some, hid]
          rfl
  | stopped => cases hwork

/-- An answer keeps what is appended in order. -/
theorem Appends.answer {masterlist : List Item} {reply : Reply} {next : Source × Shared}
    (h : update.Appends masterlist source shared.packages)
    (hanswer : update.answer reply source shared = some next) :
    update.Appends masterlist next.1 next.2.packages := by
  rw [answer.eq_def, Option.ite_none_left_eq_some] at hanswer
  obtain ⟨-, hanswer⟩ := hanswer
  cases source with
  | fetching source =>
      obtain ⟨hlist, hpackages⟩ := h
      simp only [hlist, Option.ite_none_left_eq_some, Option.some.injEq] at hanswer
      rw [← hanswer.2]
      refine ⟨[], masterlist, [], rfl, rfl, by simp [hpackages], ?_⟩
      cases masterlist with
      | nil => rfl
      | cons item rest => exact ⟨_, ofTasks_one _ item rest, rfl⟩
  | loading q =>
      obtain ⟨done, left, added, hsplit, hadded, hpackages, hq⟩ := h
      obtain ⟨work, hwork, hanswer⟩ := Option.bind_eq_some_iff.1 hanswer
      obtain ⟨outcome, houtcome, hanswer⟩ := Option.bind_eq_some_iff.1 hanswer
      rw [← Option.some.inj hanswer]
      cases left with
      | nil =>
          rw [hq] at hwork
          cases hwork
      | cons item rest =>
          obtain ⟨current, rfl, hbuilds⟩ := hq
          obtain ⟨hzero, rfl⟩ := eq_of_getElem?_singleton hwork
          obtain ⟨hworking, hsaved⟩ := hbuilds.outcome houtcome
          rw [hzero]
          cases outcome with
          | working next =>
              exact ⟨done, item :: rest, added, hsplit, hadded, hpackages, next, rfl,
                hworking next rfl⟩
          | failed =>
              exact ⟨done, item :: rest, added, hsplit, hadded, hpackages, .stopped, rfl, trivial⟩
          | thrown =>
              exact ⟨done, item :: rest, added, hsplit, hadded, hpackages, work, rfl, hbuilds⟩
          | saved entry =>
              have hentry := hsaved entry rfl
              have hmore : (done ++ [item]).map update.entry = (added ++ [entry]).map some := by
                simp [hadded, hentry]
              have hsplit' : masterlist = (done ++ [item]) ++ rest := by simp [hsplit]
              have hpackages' : shared.packages ++ [entry] =
                  update.repo.packages ++ (added ++ [entry]) := by simp [hpackages]
              rw [settle, finish_one]
              cases rest with
              | nil =>
                  rw [List.append_nil] at hsplit'
                  exact ⟨rfl, _, hsplit' ▸ hmore, hpackages'⟩
              | cons second rest =>
                  simp only [drained_one, Bool.false_eq_true, if_false]
                  exact ⟨done ++ [item], second :: rest, added ++ [entry], hsplit', hmore,
                    hpackages', .fetching second, ofTasks_one _ second rest, rfl⟩
  | storing sent =>
      simp only [Option.ite_none_left_eq_some] at hanswer
      obtain ⟨-, hanswer⟩ := hanswer
      split at hanswer
      · rw [← Option.some.inj hanswer]
        trivial
      · rw [← Option.some.inj hanswer]
        exact h
  | finished => cases hanswer
  | abandoned => cases hanswer

/-- A completed run of a repository with one source stores the packages that were there and an
entry for each entry of the master list, in order. -/
theorem Stores.eq_append {id : Bytes} {masterlist : List Item} {sent : List Entry}
    (h : update.Stores sent) (hsources : update.repo.sources = [id])
    (hlist : update.database.masterlist id = some masterlist) :
    ∃ added, masterlist.map update.entry = added.map some ∧
      sent = update.repo.packages ++ added := by
  obtain ⟨before, after, who, hreach, -, hstoring, -⟩ := h
  have hunique : ∀ who other : Fin update.repo.sources.length, who = other := by
    have hlength : update.repo.sources.length = 1 := by rw [hsources]; rfl
    exact fun who other => Fin.ext (by omega)
  have happends : ∀ who, update.Appends masterlist (before.member who) before.shared.packages := by
    refine Members.invariant (fun system : update.System => ∀ who,
      update.Appends masterlist (system.member who) system.shared.packages) ?_ hreach fun who => ?_
    · rintro system next hsystem ⟨who, reply, member, shared, hanswer, rfl⟩ other
      obtain rfl := hunique who other
      simpa using (hsystem who).answer hanswer
    · have hmember : update.repo.sources.get who = id :=
        List.mem_singleton.1 (hsources ▸ List.get_mem update.repo.sources who)
      exact ⟨hmember.symm ▸ hlist, rfl⟩
  have hlast := happends who
  rw [hstoring] at hlast
  obtain ⟨rfl, hadded⟩ := hlast
  exact hadded

end Update

/-! ## The last run in the lookups -/

/-- The last package is looked at last. -/
theorem findPackage_concat (packages : List Entry) (entry : Entry) (id : Bytes) :
    findPackage (packages ++ [entry]) id =
      if entry.name = id then some entry else findPackage packages id := by
  rw [findPackage, List.foldl_append]
  rfl

/-- The only entry of a name among the last ones is found, whatever comes before. -/
theorem findPackage_append {front back : List Entry} {id : Bytes} {entry : Entry}
    (hmem : entry ∈ back) (hname : entry.name = id) (honce : back.countP (·.name = id) = 1) :
    findPackage (front ++ back) id = some entry := by
  induction back using List.reverseRecOn with
  | nil => cases hmem
  | append_singleton back last ih =>
      rw [List.countP_append, List.countP_singleton] at honce
      rw [← List.append_assoc, findPackage_concat]
      by_cases hlast : last.name = id
      · simp only [hlast, decide_true, if_true] at honce
        have hnone : back.countP (·.name = id) = 0 := by omega
        rcases List.mem_append.1 hmem with hmem | hmem
        · exact absurd (by simpa using hname) (List.countP_eq_zero.1 hnone entry hmem)
        · rw [if_pos hlast, List.mem_singleton.1 hmem]
      · simp only [hlast, decide_false, Bool.false_eq_true, if_false, Nat.add_zero] at honce
        rw [if_neg hlast]
        rcases List.mem_append.1 hmem with hmem | hmem
        · exact ih hmem honce
        · rw [List.mem_singleton.1 hmem] at hname
          exact absurd hname hlast

namespace Update

variable {update : Update} {item : Item}

/-- What is appended for an entry of the master list. -/
theorem of_entry_eq_some {entry : Entry} (h : update.entry item = some entry) :
    ∃ pack, update.built item = some pack ∧ entry.name = pack.name ∧
      update.database.storePackage pack = some entry.id := by
  obtain ⟨pack, hpack, h⟩ := Option.bind_eq_some_iff.1 h
  obtain ⟨id, hid, h⟩ := Option.bind_eq_some_iff.1 h
  rw [← Option.some.inj h]
  exact ⟨pack, hpack, rfl, hid⟩

/-- A package has the name of its app. -/
theorem name_of_built {pack : Package} (h : update.built item = some pack) :
    (update.database.appinfo item.info).map AppInfo.name = some pack.name := by
  obtain ⟨info, hinfo, rfl⟩ := Option.map_eq_some_iff.1 h
  rw [hinfo]
  rfl

end Update

namespace Repeated

variable {repeated : Repeated} {index : Nat} {packages sent : List Entry}

/-- What a completed run appends: an entry for each entry of the master list, with the name of its
app. -/
theorem exists_added (hrun : (repeated.update index packages).Stores sent) :
    ∃ added, sent = packages ++ added ∧
      repeated.masterlist.map (repeated.update index packages).entry = added.map some ∧
      repeated.masterlist.map (repeated.appName index) = (added.map Entry.name).map some := by
  obtain ⟨added, hadded, hsent⟩ := hrun.eq_append rfl (repeated.unchanged index)
  refine ⟨added, hsent, hadded, ?_⟩
  have hname : ∀ item ∈ repeated.masterlist, repeated.appName index item =
      ((repeated.update index packages).entry item).map Entry.name := by
    intro item hitem
    have hmem := List.mem_map_of_mem (f := (repeated.update index packages).entry) hitem
    rw [hadded] at hmem
    obtain ⟨entry, -, hentry⟩ := List.mem_map.1 hmem
    obtain ⟨pack, hpack, hsame, -⟩ := Update.of_entry_eq_some hentry.symm
    rw [← hentry, Option.map_some, hsame]
    exact Update.name_of_built hpack
  calc repeated.masterlist.map (repeated.appName index)
      = (repeated.masterlist.map (repeated.update index packages).entry).map
          (Option.map Entry.name) := by
        rw [List.map_map]
        exact List.map_congr_left hname
    _ = (added.map some).map (Option.map Entry.name) := by rw [hadded]
    _ = (added.map Entry.name).map some := by simp [List.map_map, Function.comp_def]

/-- The names that are stored after some runs. -/
theorem exists_name_iff (h : repeated.Stored index packages) (name : Bytes) :
    (∃ entry ∈ packages, entry.name = name) ↔
      (∃ entry ∈ repeated.packages, entry.name = name) ∨
        ∃ earlier < index, ∃ other ∈ repeated.masterlist,
          repeated.appName earlier other = some name := by
  induction h with
  | start => simp
  | @run index packages sent hstored hrun ih =>
      obtain ⟨added, rfl, -, hnames⟩ := exists_added hrun
      have hadded : (∃ entry ∈ added, entry.name = name) ↔
          ∃ other ∈ repeated.masterlist, repeated.appName index other = some name := by
        have hmem : some name ∈ repeated.masterlist.map (repeated.appName index) ↔
            some name ∈ (added.map Entry.name).map some := by rw [hnames]
        simpa [eq_comm] using hmem.symm
      simp only [List.mem_append, or_and_right, exists_or, ih, hadded, Nat.lt_succ_iff_lt_or_eq,
        or_assoc, exists_eq_left]

/-- The entries of a name that a run appends are those of the apps with the name. -/
theorem countP_added {added : List Entry}
    (h : repeated.masterlist.map (repeated.appName index) = (added.map Entry.name).map some)
    (name : Bytes) : added.countP (·.name = name) =
      repeated.masterlist.countP fun other => repeated.appName index other = some name := by
  have hcount := congrArg (List.countP (· = some name)) h
  simpa [List.countP_map, Function.comp_def] using hcount.symm

/-- An app that has a name in the last run, and its package. -/
theorem exists_built {added : List Entry} {name : Bytes}
    (hadded : repeated.masterlist.map (repeated.update index packages).entry = added.map some)
    {entry : Entry} (hmem : entry ∈ added) (hname : entry.name = name) :
    ∃ other ∈ repeated.masterlist, ∃ pack, (repeated.update index packages).built other = some pack ∧
      pack.name = name ∧ (repeated.databases index).storePackage pack = some entry.id := by
  have hsome : some entry ∈ repeated.masterlist.map (repeated.update index packages).entry := by
    rw [hadded]
    exact List.mem_map_of_mem hmem
  obtain ⟨other, hother, hentry⟩ := List.mem_map.1 hsome
  obtain ⟨pack, hpack, hsame, hid⟩ := Update.of_entry_eq_some hentry
  exact ⟨other, hother, pack, hpack, hsame.symm.trans hname, hid⟩

/-- A completed run leaves one entry for each name, to which the lookups lead, exactly if the names
are stored for the first time. -/
theorem refreshed_iff (repeated : Repeated) (last : Nat) (packages sent : List Entry)
    (objects : Bytes → Option Package) (pages : Pages) (hstored : repeated.Stored last packages)
    (hrun : (repeated.update last packages).Stores sent)
    (hkept : ∀ item ∈ repeated.masterlist, ∀ pack id,
      (repeated.update last packages).built item = some pack →
        (repeated.databases last).storePackage pack = some id → objects id = some pack) :
    repeated.Refreshed (repeated.update last packages) objects pages sent ↔
      repeated.FirstTime last := by
  obtain ⟨added, rfl, hadded, hnames⟩ := exists_added hrun
  have hsum : ∀ name, (packages ++ added).countP (·.name = name) =
      packages.countP (·.name = name) +
        repeated.masterlist.countP fun other => repeated.appName last other = some name := by
    intro name
    rw [List.countP_append, countP_added hnames]
  have hbefore : ∀ name, packages.countP (·.name = name) = 0 ↔
      (∀ entry ∈ repeated.packages, entry.name ≠ name) ∧ ∀ index < last,
        ∀ other ∈ repeated.masterlist, repeated.appName index other ≠ some name := by
    intro name
    have hsome := exists_name_iff hstored name
    rw [List.countP_eq_zero]
    simp only [decide_eq_true_eq]
    constructor
    · intro hnone
      refine ⟨fun entry hentry hname => ?_, fun index hindex other hother hname => ?_⟩
      · obtain ⟨found, hfound, heq⟩ := hsome.2 (.inl ⟨entry, hentry, hname⟩)
        exact hnone found hfound heq
      · obtain ⟨found, hfound, heq⟩ := hsome.2 (.inr ⟨index, hindex, other, hother, hname⟩)
        exact hnone found hfound heq
    · rintro ⟨hstart, hearlier⟩ entry hentry hname
      rcases hsome.1 ⟨entry, hentry, hname⟩ with ⟨found, hfound, heq⟩ |
        ⟨index, hindex, other, hother, heq⟩
      · exact hstart found hfound heq
      · exact hearlier index hindex other hother heq
  constructor
  · intro h
    have hcounts : ∀ item ∈ repeated.masterlist, packages.countP (·.name = item.name) = 0 ∧
        repeated.masterlist.countP (fun other => repeated.appName last other = some item.name) =
          1 := by
      intro item hitem
      obtain ⟨other, hother, pack, hpack, hname, -⟩ := h.found item hitem
      have hsame : repeated.appName last other = some item.name :=
        hname ▸ Update.name_of_built hpack
      have hpos : 0 < repeated.masterlist.countP fun other =>
          repeated.appName last other = some item.name :=
        List.countP_pos_iff.2 ⟨other, hother, by simpa using hsame⟩
      have honce := h.once item hitem
      rw [hsum] at honce
      exact ⟨by omega, by omega⟩
    exact ⟨fun item hitem => ((hbefore item.name).1 (hcounts item hitem).1).1,
      fun item hitem => ((hbefore item.name).1 (hcounts item hitem).1).2,
      fun item hitem => (hcounts item hitem).2⟩
  · intro h
    refine ⟨fun item hitem => ?_, fun item hitem => ?_⟩
    · rw [hsum, (hbefore item.name).2 ⟨h.stored item hitem, h.earlier item hitem⟩,
        h.named item hitem]
    · -- the entry of the last run is the last one with the name
      have honce : added.countP (·.name = item.name) = 1 :=
        (countP_added hnames item.name).trans (h.named item hitem)
      obtain ⟨entry, hentry, hname⟩ := List.countP_pos_iff.1 (honce ▸ Nat.one_pos)
      have hname : entry.name = item.name := by simpa using hname
      obtain ⟨other, hother, pack, hpack, hsame, hid⟩ := exists_built hadded hentry hname
      have hobject := hkept other hother pack entry.id hpack hid
      have hfound : findPackage (packages ++ added) item.name = some entry :=
        findPackage_append hentry hname honce
      refine ⟨other, hother, pack, hpack, hsame, ?_, ?_⟩
      · simp only [getPackage, hfound, hobject]
      · simp only [cacheApp, hfound, hobject]

/-- Where every app has the name of its entry, only the first run leaves one entry for each name. -/
theorem firstTime_iff_of_names {last : Nat}
    (hnames : ∀ index, ∀ item ∈ repeated.masterlist,
      repeated.appName index item = some item.name) :
    repeated.FirstTime last ↔ last = 0 ∧
      ∀ item ∈ repeated.masterlist, ∀ entry ∈ repeated.packages, entry.name ≠ item.name := by
  constructor
  · intro h
    refine ⟨?_, h.stored⟩
    obtain ⟨item, rest, hlist⟩ := List.exists_cons_of_ne_nil repeated.nonempty
    have hitem : item ∈ repeated.masterlist := by simp [hlist]
    by_contra hlast
    exact h.earlier item hitem 0 (Nat.pos_of_ne_zero hlast) item hitem (hnames 0 item hitem)
  · rintro ⟨rfl, hstored⟩
    refine ⟨hstored, fun _ _ index hindex => absurd hindex (Nat.not_lt_zero index), ?_⟩
    intro item hitem
    have hcount : repeated.masterlist.countP (fun other => repeated.appName 0 other =
        some item.name) = (repeated.masterlist.map Item.name).count item.name := by
      rw [List.count, List.countP_map]
      refine List.countP_congr fun other hother => ?_
      simp [hnames 0 other hother]
    rw [hcount]
    exact List.count_eq_one_of_mem repeated.distinct (List.mem_map_of_mem hitem)

/-! ## A repository with one app -/

/-- A repository without packages whose source has one entry. -/
def letter : Repeated where
  databases _ := Update.letterDatabase
  repoid := [114]
  source := [115]
  revids _ := none
  packages := []
  masterlist := [{ name := [97], info := [105] }]
  unchanged _ := rfl
  nonempty := by simp
  distinct := by simp

/-- The package that every run builds. -/
def letterPackage : Package where
  name := [97]
  info := [105]
  version := none
  html := none
  resources := none
  revid := none
  repo := [114]
  dependencies := none
  code := [99]

/-- Every run completes and appends the same entry: the master list, the app, its code, its package
and the repository are answered one after the other. -/
theorem stores_letter (index : Nat) (packages : List Entry) :
    (letter.update index packages).Stores (packages ++ [{ name := [97], id := [112] }]) := by
  have hstep : ∀ (source next : Source) (shared after : Shared),
      (letter.update index packages).answer ⟨0, 0⟩ source shared = some (next, after) →
        Members.Step (letter.update index packages).answer
          ⟨fun _ : Fin 1 => source, shared⟩ ⟨fun _ => next, after⟩ := by
    intro source next shared after hanswer
    refine ⟨0, ⟨0, 0⟩, next, after, hanswer, ?_⟩
    refine congrArg (fun member => Members.System.mk member after) (funext fun who => ?_)
    rw [Subsingleton.elim who 0, Function.update_self]
  have hstart : (letter.update index packages).start =
      ⟨fun _ : Fin 1 => .fetching [115], ⟨packages, [], false⟩⟩ := by
    refine congrArg (fun member => Members.System.mk member _) (funext fun who : Fin 1 => ?_)
    rw [Subsingleton.elim who 0]
    rfl
  have hreach : (letter.update index packages).Reachable ⟨fun _ : Fin 1 =>
      .storing (packages ++ [{ name := [97], id := [112] }]),
        ⟨packages ++ [{ name := [97], id := [112] }], [], false⟩⟩ := by
    rw [Update.Reachable, hstart]
    exact .head (hstep _ _ _ _ rfl) (.head (hstep _ _ _ _ rfl) (.head (hstep _ _ _ _ rfl)
      (.head (hstep _ _ _ _ rfl) .refl)))
  exact ⟨_, _, (0 : Fin 1), hreach, hstep _ .finished _ _ rfl, rfl, rfl⟩

/-- After one run the repository has one entry, and the app is found. -/
theorem refreshed_letter :
    letter.Refreshed (letter.update 0 []) (fun _ => some letterPackage)
        { renderFile := fun _ code => some code, html := fun _ => none, store := fun _ => true }
        [{ name := [97], id := [112] }] ↔ letter.FirstTime 0 := by
  refine refreshed_iff letter 0 [] [{ name := [97], id := [112] }] (fun _ => some letterPackage)
    { renderFile := fun _ code => some code, html := fun _ => none, store := fun _ => true }
    .start (stores_letter 0 []) ?_
  intro item hitem pack id hpack hid
  rw [List.mem_singleton.1 hitem] at hpack
  exact hpack

/-- After two runs it has two entries for its only app. -/
theorem not_refreshed_letter_twice :
    ∃ packages sent, letter.Stored 1 packages ∧ (letter.update 1 packages).Stores sent ∧
      ¬ letter.Refreshed (letter.update 1 packages) (fun _ => some letterPackage)
        { renderFile := fun _ code => some code, html := fun _ => none, store := fun _ => true }
        sent := by
  refine ⟨_, _, .run .start (stores_letter 0 []), stores_letter 1 _, fun h => ?_⟩
  have honce := h.once { name := [97], info := [105] } (List.mem_singleton_self _)
  exact absurd honce (by decide)

end Repeated

end AnarchNet.Ppm
