import AnarchNet.Json.Value
import AnarchNet.Lib.AsyncQueue
import AnarchNet.Lib.Members

/-!
# Updating a repository

`updateRepo` of `ppm.js`. The script asks the database and goes on when an answer comes. Each source
of the repository has a queue of the entries of its master list; an entry has a queue of its codes
and one of its resources before its package is stored. The sources share the repository's list of
packages and the callback. The order in which the answers come is up to the database.
-/

namespace AnarchNet.Ppm

open FileSystem Json

/-- An entry of a master list. -/
structure Item where
  name : Bytes
  info : Bytes

/-- A resource of an app. -/
structure Resource where
  key : Bytes
  value : Bytes
  filestore : Option Value

/-- `appinfo`. A member that is missing or false is `none`. -/
structure AppInfo where
  name : Bytes
  version : Option Value
  html : Option Value
  resources : Option (List Resource)
  dependencies : Option Value
  code : List (Bytes × Bytes)

/-- `pack`. -/
structure Package where
  name : Bytes
  info : Bytes
  version : Option Value
  html : Option Value
  resources : Option (List Resource)
  revid : Option Value
  repo : Bytes
  dependencies : Option Value
  code : Bytes

/-- `map`, which is stored for a resource. -/
structure ResourceMap where
  key : Bytes
  value : Bytes
  packid : Bytes
  filestore : Option Value

/-- An entry of the repository's packages. -/
structure Entry where
  name : Bytes
  id : Bytes

/-- `repo`. -/
structure Repo where
  sources : List Bytes
  packages : List Entry
  revid : Option Value

/-- The answers of the database. Getting what is not there or fails yields `none`, and so does
storing that fails; a package that is stored gets an id. -/
structure Database where
  masterlist : Bytes → Option (List Item)
  appinfo : Bytes → Option AppInfo
  code : Bytes → Option Bytes
  storeMap : ResourceMap → Bool
  storePackage : Package → Option Bytes
  storeRepo : List Entry → Bool

/-- How the callback of `updateRepo` is called. -/
inductive Call where
  | masterListNotFound
  | failed
  | stored (packages : List Entry)

/-- What the sources share: the packages of the repository, the calls of the callback, and whether
an exception has ended the script. -/
structure Shared where
  packages : List Entry
  calls : List Call
  thrown : Bool

/-- The work on an entry of a master list, by what it waits for. -/
inductive Work where
  | fetching (item : Item)
  | loadingCode (pack : Package) (info : AppInfo) (cq : AsyncQueue Bytes Bytes)
  | storingResources (pack : Package) (lrq : AsyncQueue Resource Resource)
  | saving (pack : Package)
  | stopped

/-- A source, by what it waits for. While the repository is stored, what was sent is kept. -/
inductive Source where
  | fetching (source : Bytes)
  | loading (q : AsyncQueue Item Work)
  | storing (sent : List Entry)
  | finished
  | abandoned

/-- What becomes of the work on an entry: it goes on, it calls back with a package stored, the
callback of `updateRepo` is called with an error, or it throws. -/
inductive Outcome where
  | working (work : Work)
  | saved (entry : Entry)
  | failed
  | thrown

/-- The request that an answer is for: the worker of the outer queue, and that of the inner one. -/
structure Reply where
  worker : Nat
  request : Nat

/-- A call of `updateRepo` for a repository that was found. -/
structure Update where
  database : Database
  repoid : Bytes
  repo : Repo

namespace Update

variable (update : Update)

/-- The package of an app before its code is loaded. -/
def newPackage (item : Item) (info : AppInfo) : Package where
  name := info.name
  info := item.info
  version := info.version
  html := info.html
  resources := info.resources
  revid := update.repo.revid
  repo := update.repoid
  dependencies := info.dependencies
  code := []

/-- `map` of a resource. -/
def resourceMap (pack : Package) (resource : Resource) : ResourceMap where
  key := resource.key
  value := resource.value
  packid := pack.name
  filestore := resource.filestore

/-- `loadResources`, called when all code is loaded. A list of resources that is empty makes a queue
that never drains. -/
def loadResources (pack : Package) (info : AppInfo) : Work :=
  match info.resources with
  | none => .saving pack
  | some resources => .storingResources pack (AsyncQueue.ofTasks 2 id resources)

/-- The worker of `cq`: the code is added if it is found. -/
def addCode (pack : Package) (info : AppInfo) (ctask : Bytes) : Package :=
  { pack with code := pack.code ++ ((info.code.lookup ctask).bind update.database.code).getD [] }

/-- The worker of `q` when an answer comes. -/
def workOn (request : Nat) : Work → Option Outcome
  | .fetching item =>
      if request ≠ 0 then none
      else
        match update.database.appinfo item.info with
        | none => some .failed
        | some info => some (.working (.loadingCode (update.newPackage item info) info
            (AsyncQueue.ofTasks 1 id (info.code.map Prod.fst))))
  | .loadingCode pack info cq =>
      (cq.active[request]?).map fun ctask =>
        let pack := update.addCode pack info ctask
        let cq := cq.finish 1 id request
        if cq.drained then .working (loadResources pack info)
        else .working (.loadingCode pack info cq)
  | .storingResources pack lrq =>
      (lrq.active[request]?).map fun lrtask =>
        if update.database.storeMap (resourceMap pack lrtask) then
          let lrq := lrq.finish 2 id request
          if lrq.drained then .working (.saving pack) else .working (.storingResources pack lrq)
        else .thrown
  | .saving pack =>
      if request ≠ 0 then none
      else
        match update.database.storePackage pack with
        | none => some .thrown
        | some id => some (.saved { name := pack.name, id := id })
  | .stopped => none

/-- The queue of a source after the outcome of one of its workers. An entry that fails calls the
callback and never calls back. -/
def settle (q : AsyncQueue Item Work) (worker : Nat) (shared : Shared) :
    Outcome → Source × Shared
  | .working work => (.loading (q.goOn worker work), shared)
  | .saved entry =>
      let packages := shared.packages ++ [entry]
      let q := q.finish 1 .fetching worker
      (if q.drained then .storing packages else .loading q, { shared with packages := packages })
  | .failed =>
      (.loading (q.goOn worker .stopped), { shared with calls := shared.calls ++ [.failed] })
  | .thrown => (.loading q, { shared with thrown := true })

/-- A source when an answer comes. -/
def answer (reply : Reply) (source : Source) (shared : Shared) : Option (Source × Shared) :=
  if shared.thrown then none
  else
    match source with
    | .fetching source =>
        if reply.worker ≠ 0 ∨ reply.request ≠ 0 then none
        else
          match update.database.masterlist source with
          | none =>
              some (.abandoned, { shared with calls := shared.calls ++ [.masterListNotFound] })
          | some masterlist =>
              some (.loading (AsyncQueue.ofTasks 1 .fetching masterlist), shared)
    | .loading q => do
        let work ← q.active[reply.worker]?
        let outcome ← update.workOn reply.request work
        return settle q reply.worker shared outcome
    | .storing sent =>
        if reply.worker ≠ 0 ∨ reply.request ≠ 0 then none
        else if update.database.storeRepo sent then
          some (.finished, { shared with calls := shared.calls ++ [.stored shared.packages] })
        else some (.storing sent, { shared with thrown := true })
    | .finished => none
    | .abandoned => none

/-- The sources of a repository and what they share. -/
abbrev System := Members.System (Fin update.repo.sources.length) Source Shared

/-- The system when all sources have been asked for. -/
def start : update.System where
  member source := .fetching (update.repo.sources.get source)
  shared := { packages := update.repo.packages, calls := [], thrown := false }

/-- The states that the script can come to. -/
def Reachable (system : update.System) : Prop :=
  Relation.ReflTransGen (Members.Step update.answer) update.start system

end Update

end AnarchNet.Ppm
